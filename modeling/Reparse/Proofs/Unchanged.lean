import Reparse.Proofs.Kinship

/-!
# Unchanged documents

What the tree of a document offers to a call for the same document. If the tree was made without an old
tree, a node of it that may be taken over where a call stands is what is read there, and what is read
after it is what follows in the document: such a node ends with a semicolon or a brace, after which no
string is open (`Builds.exists_read`). And all nodes are found that may be taken over, as long as the
nodes above them begin before them (`Tree.mem_candidatesAt`).
-/

namespace Reparse

/-! ## Nodes that are found -/

namespace Node

variable {n c k : Node} {path : List Nat}

/-- Whether a byte lies in a node or in the blank text before it. -/
def Meets (n : Node) (byte : Nat) : Prop := n.totalStart ≤ byte ∧ byte < n.stopByte

/-- Where all nodes are tiled, those below a child are. -/
lemma tiled_child (h : ∀ k ∈ n.below, k.Tiled) (hc : c ∈ n.children) : ∀ k ∈ c.below, k.Tiled :=
  fun k hk => h k (mem_below_of_mem_inner (mem_inner_of_child hc hk))

/-- Where all nodes are tiled, a node at the end of a path lies in the one where the path begins. -/
lemma inside_of_descend? (h : ∀ m ∈ n.below, m.Tiled) (hk : n.descend? path = some k) :
    n.totalStart ≤ k.totalStart ∧ k.stopByte ≤ n.stopByte := by
  induction path generalizing n with
  | nil =>
    obtain rfl := Option.some.inj hk
    exact ⟨Nat.le_refl _, Nat.le_refl _⟩
  | cons i path ih =>
    obtain ⟨c, hc, hk⟩ := Option.bind_eq_some_iff.1 hk
    have hmem : c ∈ n.children := List.mem_of_getElem? hc
    obtain ⟨hstart, -, hstop⟩ := (h n n.mem_below_self).inside c hmem
    obtain ⟨hstart', hstop'⟩ := ih (tiled_child h hmem) hk
    exact ⟨Nat.le_trans hstart hstart', Nat.le_trans hstop' hstop⟩

end Node

namespace Reuse

variable {byte levels i : Nat} {n p m c : Node} {path : List Nat}

/-- A node is intact if it has neither a mark nor an error. -/
lemma isIntact_iff : isIntact n = true ↔ n.hasChanges = false ∧ n.hasError = false := by
  simp [isIntact]

/-- A search has found a child that begins at the byte and is not void. -/
lemma stepAt_eq_found : stepAt byte c = .found ↔ c.totalStart = byte ∧ byte < c.stopByte := by
  unfold stepAt
  split
  · exact iff_of_true rfl ‹_›
  · refine iff_of_false (fun h => ?_) ‹_›
    split at h
    · cases h
    · split at h <;> cases h

/-- A search enters a child that begins before the byte and ends after it. -/
lemma stepAt_eq_enter : stepAt byte c = .enter ↔ c.totalStart < byte ∧ byte < c.stopByte := by
  unfold stepAt
  split
  · exact iff_of_false Step.noConfusion fun h => by omega
  · split
    · exact iff_of_true rfl ‹_›
    · refine iff_of_false (fun h => ?_) ‹_›
      split at h <;> cases h

/-- The search passes over the children before one that starts at the byte or before it. -/
lemma find?_stepAt (htiled : n.Tiled) (hnested : n.Nested) (hm : n.child? i = some m)
    (hstart : m.totalStart ≤ byte) (hstep : stepAt byte m ≠ .pass) :
    n.children.find? (fun c => stepAt byte c != .pass) = some m := by
  obtain ⟨hlt, hget⟩ := List.getElem?_eq_some_iff.1 hm
  refine List.find?_eq_some_iff_getElem.2 ⟨bne_iff_ne.2 hstep, i, hlt, hget, fun j hj => ?_⟩
  have hle := List.pairwise_iff_getElem.1 htiled.ordered j i (Nat.lt_trans hj hlt) hlt hj
  rw [hget] at hle
  obtain ⟨-, hcle, -⟩ := hnested.inside (List.getElem_mem (Nat.lt_trans hj hlt))
  generalize n.children[j] = c at hle hcle
  have htotal : c.totalStart ≤ c.startByte := Nat.sub_le _ _
  have hpass : stepAt byte c = .pass := by
    rw [stepAt, if_neg (by omega), if_neg (by omega), if_neg (by omega)]
  rw [hpass]
  rfl

/-- Where a child meets the byte, the search goes on there. -/
lemma candidatesBelow_of_meets (htiled : n.Tiled) (hnested : n.Nested) (hc : c ∈ n.children)
    (hmeets : c.Meets byte) : candidatesBelow byte (levels + 1) n =
      if c.totalStart = byte then chain byte levels c else candidatesBelow byte levels c := by
  obtain ⟨i, hi⟩ := List.getElem?_of_mem hc
  obtain ⟨hle, hstop⟩ := hmeets
  by_cases hstart : c.totalStart = byte
  · have hstep : stepAt byte c = .found := stepAt_eq_found.2 ⟨hstart, hstop⟩
    have hfind := find?_stepAt htiled hnested hi hle (by rw [hstep]; exact Step.noConfusion)
    rw [if_pos hstart, candidatesBelow, hfind]
    simp only [hstep]
  · have hstep : stepAt byte c = .enter := stepAt_eq_enter.2 ⟨Nat.lt_of_le_of_ne hle hstart, hstop⟩
    have hfind := find?_stepAt htiled hnested hi hle (by rw [hstep]; exact Step.noConfusion)
    rw [if_neg hstart, candidatesBelow, hfind]
    simp only [hstep]

/-- The search finds an intact node that is not void, if its parent begins before it. -/
theorem mem_candidatesBelow (htiled : ∀ k ∈ n.below, k.Tiled) (hnested : n.Nested)
    (hp : n.descend? path = some p) (hm : p.child? i = some m) (hstart : m.totalStart = byte)
    (hstop : byte < m.stopByte) (hintact : isIntact m = true)
    (hbefore : path ≠ [] → p.totalStart < byte) (hlevels : n.green.depth ≤ levels) :
    m ∈ candidatesBelow byte levels n := by
  induction path generalizing n levels with
  | nil =>
    obtain rfl := Option.some.inj hp
    have hdepth := Node.depth_child_lt (List.mem_of_getElem? hm)
    have hpos : 0 < m.green.depth := by
      obtain ⟨t, ⟨l, cs⟩, start⟩ := m
      exact Nat.succ_pos _
    obtain ⟨levels, rfl⟩ : ∃ k, levels = k + 2 := ⟨levels - 2, by omega⟩
    rw [candidatesBelow_of_meets (htiled n n.mem_below_self) hnested (List.mem_of_getElem? hm)
      ⟨Nat.le_of_eq hstart, hstop⟩, if_pos hstart, chain, if_pos hstart, if_pos hintact]
    exact List.mem_cons_self ..
  | cons j path ih =>
    obtain ⟨c, hc, hp⟩ := Option.bind_eq_some_iff.1 hp
    have hmem : c ∈ n.children := List.mem_of_getElem? hc
    have htiledc := Node.tiled_child htiled hmem
    have hdepth := Node.depth_child_lt hmem
    obtain ⟨levels, rfl⟩ : ∃ k, levels = k + 1 := ⟨levels - 1, by omega⟩
    -- the child on the way begins no later than the parent of the node, and goes beyond the node
    obtain ⟨hle, hpstop⟩ := Node.inside_of_descend? htiledc hp
    obtain ⟨-, -, hmstop⟩ := (htiledc p (Node.mem_below_iff.2 ⟨path, hp⟩)).inside m (List.mem_of_getElem? hm)
    have hlt := hbefore (List.cons_ne_nil _ _)
    have hmeets : c.Meets byte := ⟨by omega, by omega⟩
    rw [candidatesBelow_of_meets (htiled n n.mem_below_self) hnested hmem hmeets, if_neg (by omega)]
    exact ih htiledc (hnested.child hmem) hp (fun _ => hlt) (by omega)

end Reuse

/-- In a tiled tree all nodes are tiled. -/
lemma Tree.tiled_below {t : Tree} (h : t.root.Tiled) (hw : t.root.width ≤ limit) :
    ∀ k ∈ t.rootNode.below, k.Tiled := fun k hk => by
  obtain ⟨path, hpath⟩ := Node.mem_below_iff.1 hk
  obtain ⟨x, -, htiled, hle, hstart⟩ := tiled_of_descend? h hw hpath
  exact Node.tiled_of_placed htiled hle hstart

/-- A node with text ends after the blank text before it starts. -/
lemma Tree.totalStart_lt_stopByte {t : Tree} {n : Node} (h : t.root.Tiled) (hw : t.root.width ≤ limit)
    (hn : n ∈ t.rootNode.below) (hpos : 0 < n.green.label.size.bytes) : n.totalStart < n.stopByte := by
  obtain ⟨path, hpath⟩ := Node.mem_below_iff.1 hn
  obtain ⟨x, -, -, hle, hstart⟩ := tiled_of_descend? h hw hpath
  have hwidth : n.green.width = n.green.label.padding.bytes + n.green.label.size.bytes := rfl
  exact Nat.lt_of_le_of_lt (Nat.sub_le _ _) (Node.lt_stopByte (by omega) hpos)

/-- In a tiled tree, all intact nodes that are not void are found where their padding begins, as long as
their parents are the root or begin before them. -/
theorem Tree.mem_candidatesAt {t : Tree} {path : List Nat} {i : Nat} {p m : Node} (h : t.root.Tiled)
    (hw : t.root.width ≤ limit) (hp : t.rootNode.descend? path = some p) (hm : p.child? i = some m)
    (hpos : m.totalStart < m.stopByte) (hintact : Reuse.isIntact m = true)
    (hbefore : path ≠ [] → p.totalStart < m.totalStart) : m ∈ t.candidatesAt m.totalStart := by
  exact Reuse.mem_candidatesBelow (tiled_below h hw) (nested_of_tiled h hw) hp hm rfl hpos hintact hbefore
    (Nat.le_refl _)

namespace C

open Item

/-! ## Tokens up to a byte -/

/-- Tokens in order that end where they begin are none. -/
lemma InOrder.eq_nil {x y : Nat} {ts : List Token} (h : InOrder x ts y) (hend : endOf x ts = x) :
    ts = [] := by
  cases ts with
  | nil => rfl
  | cons t ts =>
    obtain ⟨hx, hlt, h⟩ := h
    have hle := h.le
    rw [endOf_cons] at hend
    omega

/-- Tokens in order are cut in two in one way only where the first of them end. -/
lemma InOrder.append_inj {x y : Nat} {a b a' b' : List Token} (h : InOrder x (a ++ b) y)
    (heq : a ++ b = a' ++ b') (hend : endOf x a = endOf x a') : a = a' ∧ b = b' := by
  rcases List.append_eq_append_iff.1 heq with ⟨u, rfl, rfl⟩ | ⟨u, rfl, rfl⟩
  · rw [inOrder_append, inOrder_append] at h
    rw [endOf_append] at hend
    obtain rfl := h.2.1.eq_nil hend.symm
    exact ⟨(List.append_nil a).symm, rfl⟩
  · rw [inOrder_append, inOrder_append] at h
    rw [endOf_append] at hend
    obtain rfl := h.1.2.eq_nil hend
    exact ⟨List.append_nil a', rfl⟩

/-! ## What a call without an old tree reads -/

/-- Whether an item, if it is a block, begins with its brace, and no statement in it is under a field
unless it holds an error. -/
def Item.Braced : Item → Prop
  | .node _ .compoundStatement parts => ∃ brace rest, parts = .token none brace :: rest ∧
      ∀ f rule ps, Item.node f rule ps ∈ rest → rule ∈ reusableAtTop →
        (Item.node f rule ps).hasError = false → f = none
  | _ => True

/-- A declaration that is read as a whole is a node of that rule. -/
lemma declaration_rule {mayDefine : Bool} {t : Token} {ts rest : List Token} {f : Option Field}
    {rule : Rule} {parts : List Item}
    (h : declaration mayDefine t ts = (.whole (.node f rule parts), rest)) : rule = .declaration := by
  unfold declaration at h
  dsimp only at h
  split at h
  · split at h <;> cases h
    rfl
  · cases h
    rfl

/-- A statement that is read as a whole is no block and no function definition. -/
lemma statement_rule {t : Token} {ts rest : List Token} {f : Option Field} {rule : Rule}
    {parts : List Item} (h : statement t ts = (.whole (.node f rule parts), rest)) :
    rule ≠ .compoundStatement ∧ rule ≠ .functionDefinition := by
  unfold statement at h
  split at h
  · rw [declaration_rule h]
    decide
  · cases h
  · cases h
    decide
  · cases h
    decide
  · cases h
  · split at h <;> cases h <;> decide

/-- The same of what stands at the top of a document. -/
lemma rule_of_read {blocks : List Block} {t : Token} {ts rest : List Token} {f : Option Field}
    {rule : Rule} {parts : List Item}
    (h : (if blocks.isEmpty then topLevel t ts else statement t ts) = (.whole (.node f rule parts), rest)) :
    rule ≠ .compoundStatement ∧ rule ≠ .functionDefinition := by
  split at h
  · unfold topLevel at h
    split at h
    · rw [declaration_rule h]
      decide
    · exact statement_rule h
  · exact statement_rule h

section

variable {strict : Prop} {d : Document} {ranges : List Span} {e : State} {items : List Item} {t : Tree}

/-- What is asked of the nodes that a good state makes next, if they may be taken over. -/
lemma State.Good.asks (he : e.Good False (.ofDocument d ranges)) :
    e.Asks fun i => i.Proper False (.ofDocument d ranges) ∧ i.Braced where
  read t rest f rule parts rest' hp hr hrule := by
    obtain ⟨-, -, hproper, -⟩ := he.proper_read nofun hp hr
    refine ⟨hproper hrule, ?_⟩
    obtain ⟨hne, -⟩ := rule_of_read hr
    cases rule <;> first | exact absurd rfl hne | trivial
  body b outer hb := by
    refine ⟨(he.proper_closed hb).1, ?_⟩
    have hfit : PartsFit (b :: outer) e.here.parts := by
      rw [← hb]
      exact he.sound.here
    obtain ⟨⟨newer, brace, hparts, -, hnewer⟩, -⟩ := hfit
    refine ⟨brace, newer.reverse ++ (expect .rightBrace none e.pending).1, ?_, ?_⟩
    · rw [hparts, List.reverse_append]
      rfl
    · intro f rule ps hmem hrule herror
      rcases List.mem_append.1 hmem with hmem | hmem
      · obtain ⟨-, hi⟩ := (hnewer _ (List.mem_reverse.1 hmem)).resolve_left nofun
        exact (hi herror).field_eq_none (.inl rfl)
      · exact ((eachAll_iff.1 (inner_expect .rightBrace none e.pending) _ hmem).2.1 hrule).elim
  definition b outer head hb hdef := ⟨(he.proper_closed hb).2 head hdef, trivial⟩

/-- What is asked of the nodes of a document holds of those that a call without an old tree has made. -/
lemma State.Good.each (he : e.Good True (.ofDocument d ranges)) :
    e.draft.Each fun i => i.Proper False (.ofDocument d ranges) ∧ i.Braced := by
  suffices h : e.draft.Each (fun i => i.Proper False (.ofDocument d ranges) ∧ i.Braced) ∧
      e.Good False (.ofDocument d ranges) from h.1
  have hsteps := he.fresh trivial
  clear he
  induction hsteps with
  | refl => exact ⟨.empty, .start False (Source.ordered_chars d ranges)⟩
  | tail _ hl ih => exact ⟨ih.1.leads hl ih.2.asks, ih.2.leads hl⟩

/-- The nodes of a document that is read without an old tree, if they may be taken over. -/
lemma Builds.each (h : Builds True (.ofDocument d ranges) e items t) :
    EachAll (fun i => i.Proper False (.ofDocument d ranges) ∧ i.Braced) items := by
  obtain ⟨-, -, rfl⟩ := of_finished h.finished
  exact eachAll_reverse.2 h.good.each.here.parts

/-- At the top of a document, no statement is under a field unless it holds an error. -/
lemma Builds.field_eq_none {source : Source} (h : Builds strict source e items t) {f : Option Field}
    {rule : Rule} {parts : List Item} (hmem : Item.node f rule parts ∈ items)
    (herror : (Item.node f rule parts).hasError = false) : f = none := by
  obtain ⟨-, hblocks, rfl⟩ := of_finished h.finished
  have hfit : PartsFit [] e.here.parts := by
    rw [← hblocks]
    exact h.good.sound.here
  obtain ⟨-, hi⟩ := (hfit _ (List.mem_reverse.1 hmem)).resolve_left nofun
  exact (hi herror).field_eq_none (.inr rfl)

/-- A statement without errors that stands at the top of a document or in a block is under no field, and
in a block it begins after the brace. -/
lemma Builds.statement {path : List Nat} {k : Nat} {ts : List Token} {f : Option Field} {rule : Rule}
    {parts : List Item} (h : Builds True (.ofDocument d ranges) e items t)
    (hi : At items (path ++ [k]) ts (.node f rule parts)) (hr : rule ∈ reusableAtTop)
    (herror : (Item.node f rule parts).hasError = false)
    (habove : ∀ ts' i, At items path ts' i → ∃ f parts, i = .node f .compoundStatement parts) :
    f = none ∧ ∀ ts' i, At items path ts' i → endOf 0 ts' < endOf 0 ts := by
  rcases hi.parent with ⟨rfl, before, after, rfl, -⟩ | ⟨ts', f', rule', before, after, hparent, rfl⟩
  · refine ⟨h.field_eq_none (List.mem_append_right _ (List.mem_cons_self ..)) herror, fun ts' i hi => ?_⟩
    exact absurd rfl hi.ne_nil
  · obtain ⟨_, _, heq⟩ := habove _ _ hparent
    obtain ⟨rfl, rfl, -⟩ := Item.node.inj heq
    obtain ⟨-, brace, rest, hparts, hrest⟩ := (hparent.each h.each).2.1 (by decide)
    -- the node is not the brace, so that the brace is before it
    cases before with
    | nil => cases (List.cons.inj hparts).1
    | cons b before =>
      obtain ⟨rfl, rfl⟩ := List.cons.inj hparts
      refine ⟨hrest f rule parts (List.mem_append_right _ (List.mem_cons_self ..)) hr herror,
        fun ts i hi => ?_⟩
      obtain ⟨rfl, -⟩ := hi.unique hparent
      obtain ⟨more, hall⟩ := hparent.tokensOf_eq
      have horder := h.builtAllAt.order
      rw [hall, Item.tokens] at horder
      simp only [tokensOf_append, tokensOf, Item.tokens, List.cons_append, List.nil_append,
        List.append_assoc] at horder
      obtain ⟨-, hstart, hlt, horder⟩ := inOrder_append.1 horder
      have hle := (inOrder_append.1 horder).1.le
      rw [endOf_append, tokensOf, Item.tokens, List.singleton_append, endOf_cons]
      omega

/-- The tokens of the items are all tokens of the document. -/
lemma Builds.tokens_eq (h : Builds True (.ofDocument d ranges) e items t) :
    tokensOf items = tokensFrom (.ofDocument d ranges) 0 :=
  (tokens_finished h.finished).trans (tokens_steps (h.good.fresh trivial))

/-! ## What the tree of a document offers -/

/-- What is built of an item without errors begins with a token, where that starts. -/
lemma exists_head_built {place : Nat → Length} {bound : Nat} (hp : Coherent place bound) :
    ∀ {i : Item} {x y : Nat}, i.Whole → InOrder x i.tokens y → y ≤ bound → i.hasError = false →
      ∃ u rest, i.tokens = u :: rest ∧
        Laid place x u.start (endOf x i.tokens) (built place (place x) i).1.node
  | .token field u, x, y, _, ho, hy, _ => by
    refine ⟨u, [], rfl, .leaf ho.1 (Nat.le_of_lt ho.2.1) rfl rfl⟩
  | .missing field kind, _, _, _, _, _, he => by cases he
  | .reused g, _, _, h, _, _, _ => h.elim
  | .node field rule [], _, _, h, _, _, _ => absurd rfl h.1
  | .node field rule (i :: parts), x, y, h, ho, hy, he => by
    obtain ⟨⟨a, hl⟩, -⟩ := laid_built hp h ho hy
    have ho' := ho
    rw [Item.tokens, tokensOf, inOrder_append] at ho'
    have hle := Nat.le_trans ho'.2.le.1 (Nat.le_trans ho'.2.le.2 hy)
    have hi : i.hasError = false := by
      simp only [hasError, hasErrorOf, Bool.or_eq_false_iff] at he
      exact he.2.1
    obtain ⟨u, rest, hu, hfirst⟩ := exists_head_built hp h.2.1 ho'.1 hle hi
    refine ⟨u, rest ++ tokensOf parts, by rw [Item.tokens, tokensOf, hu, List.cons_append], ?_⟩
    -- the first part begins where the whole does
    obtain rfl : a = u.start := by
      cases hl with
      | node hc _ _ _ =>
        have hpad := congrArg Length.bytes (hc.padding.1.symm.trans hfirst.padding.1)
        rw [Length.bytes_beyond, Length.bytes_beyond, hp.bytes, hp.bytes, hp.bytes] at hpad
        have h1 := hc.le
        have h2 := hfirst.le
        omega
    exact hl

/-- A node of a rule that may be taken over was built of a node of that rule. -/
lemma Item.BuiltAt.exists_node {place : Nat → Length} {x y : Nat} {i : Item} {g : Green} {rule : Rule}
    (h : BuiltAt place x y i g) (hr : rule ∈ reusableAtTop) (hs : g.label.symbol = rule.symbol) :
    ∃ f parts, i = .node f rule parts ∧ i.hasError = g.label.hasError := by
  have hlabel := congrArg Green.label h.bare
  rw [Green.label_bare] at hlabel
  have hsymbol := (congrArg Label.symbol hlabel).symm.trans hs
  have herror : i.hasError = g.label.hasError :=
    (hasError_built _ _ i).symm.trans (congrArg Label.hasError hlabel).symm
  cases i with
  | token f t => exact absurd hsymbol (Terminal.symbol_ne hr t.kind)
  | missing f kind => exact absurd hsymbol (Terminal.symbol_ne hr kind)
  | reused g => exact h.whole.elim
  | node f rule' parts =>
    obtain rfl : rule' = rule := Rule.symbol_injective hsymbol
    exact ⟨f, parts, rfl, herror⟩

/-- A subtree stands for the node that it was built of. -/
lemma Item.BuiltAt.standsFor {x : Nat} {f : Option Field} {rule : Rule} {parts : List Item} {g : Green}
    {rest : List SourceChar} (hd : d.bytes.length ≤ limit) (hx : PartedAt d x)
    (h : BuiltAt (Source.ofDocument d ranges).positionAt x (Source.ofDocument d ranges).endOfInput
      (.node f rule parts) g) (his : (Item.node none rule parts).Is .topLevel)
    (hc : Covers ((Source.ofDocument d ranges).charsFrom x) (Item.node none rule parts).tokens rest)
    (hahead : ∀ u ∈ (Item.node none rule parts).tokens,
      u.lookahead = Lexer.widthAhead ((Source.ofDocument d ranges).charsFrom u.stop)) :
    StandsFor False (.ofDocument d ranges) x g (.node none rule parts) := by
  have hp := Source.coherent_positionAt d ranges
  have hle := Source.endOfInput_le_limit hd ranges
  have hwidth := h.width hp hle
  obtain ⟨-, hrest⟩ := hc.parted hx
  obtain ⟨⟨b, hlaid⟩, hnext⟩ := laid_built hp h.whole h.order hle
  rw [← h.bare] at hlaid
  have htotal := hlaid.add_total hp (Nat.le_trans h.order.le.2 hle)
  rw [Green.total_bare] at htotal
  refine ⟨his, h.whole, ?_, hwidth.symm, ?_, nofun, hahead⟩
  · rw [hwidth]
    rw [hrest] at hc
    exact hc
  · refine Prod.ext ?_ (hnext.trans htotal.symm)
    show (⟨none, _⟩ : Child Green) = ⟨none, g.bare⟩
    rw [h.bare]
    rfl

/-- A node that stands at the top of a document or in a block, without errors and of a rule that may be
taken over, was built of a node under no field, and is found where its padding begins. -/
theorem Builds.mem_candidatesAt {path : List Nat} {k : Nat} {m n : Node} {rule : Rule}
    (hd : d.bytes.length ≤ limit) (hfits : t.root.Fits d.bytes) (hunmarked : t.root.Unmarked)
    (h : Builds True (.ofDocument d ranges) e items t) (hm : t.rootNode.descend? path = some m)
    (hn : m.child? k = some n) (hr : rule ∈ reusableAtTop) (hs : n.symbol = rule.symbol)
    (herror : n.hasError = false) (habove : path ≠ [] → m.symbol = Rule.compoundStatement.symbol) :
    n ∈ t.candidatesAt n.totalStart ∧ 0 < n.green.width ∧
      ∃ ts parts, At items (path ++ [k]) ts (.node none rule parts) ∧ n.totalStart = endOf 0 ts := by
  have hpath : t.rootNode.descend? (path ++ [k]) = some n := by
    rw [Node.descend?_concat, hm, Option.bind_some, hn]
  have hne : path ++ [k] ≠ [] := List.append_ne_nil_of_right_ne_nil _ (List.cons_ne_nil _ _)
  have hl := Tree.locate_of_descend? hd hfits hpath
  obtain ⟨ts, i, hi, hstart, hbuilt⟩ := h.locate hd hl hne
  obtain ⟨f, parts, rfl, hclean⟩ := hbuilt.exists_node hr hs
  rw [show n.green.label.hasError = false from herror] at hclean
  -- the node above is a block
  have hparent : ∀ x g, t.root.locate? path = some (x, g) → path ≠ [] →
      ∃ ts f parts, At items path ts (.node f .compoundStatement parts) ∧ x = endOf 0 ts := by
    intro x g hg hne
    obtain ⟨ts, i, hi, hx, hbuilt⟩ := h.locate hd hg hne
    have hsymbol := habove hne
    obtain ⟨-, rfl⟩ := Prod.mk.inj (Option.some.inj ((Tree.locate_of_descend? hd hfits hm).symm.trans hg))
    have hblock : Rule.compoundStatement ∈ reusableAtTop := by decide
    obtain ⟨f, parts, rfl, -⟩ := hbuilt.exists_node hblock hsymbol
    exact ⟨ts, f, parts, hi, hx⟩
  have hm' := Tree.locate_of_descend? hd hfits hm
  obtain ⟨rfl, hbefore⟩ := h.statement hi hr hclean fun ts' i hi' => by
    obtain ⟨ts, f, parts, hparent, -⟩ := hparent _ _ hm' hi'.ne_nil
    obtain ⟨-, rfl⟩ := hi'.unique hparent
    exact ⟨f, parts, rfl⟩
  have hpos := h.size_pos hd (Green.has_iff.2 ⟨_, hl⟩) hne herror
  have hwidth : 0 < n.green.width := Nat.lt_of_lt_of_le hpos (Nat.le_add_left _ _)
  have htiled := hfits.tiled
  have hle := Nat.le_trans hfits.width_le hd
  refine ⟨Tree.mem_candidatesAt htiled hle hm hn ?_ ?_ fun hne => ?_, hwidth, ts, parts, hi, hstart⟩
  · exact Tree.totalStart_lt_stopByte htiled hle (Node.mem_below_iff.2 ⟨_, hpath⟩) hpos
  · exact Reuse.isIntact_iff.2 ⟨hunmarked _ _ _ hl, herror⟩
  · obtain ⟨ts', f, parts', hparent, hstart'⟩ := hparent _ _ hm' hne
    rw [hstart', hstart]
    exact hbefore _ _ hparent

/-- Where a good state has come to the byte of a node of the document that may be taken over, it reads
next what that is made of, and then what is read from its stop on: the node ends with a semicolon or a
brace, after which no string is open. -/
lemma Builds.pending_eq {e' : State} {path : List Nat} {ts : List Token} {f : Option Field} {rule : Rule}
    {parts : List Item} (h : Builds True (.ofDocument d ranges) e items t)
    (he : e'.Good True (.ofDocument d ranges)) (hi : At items path ts (.node f rule parts))
    (hend : endOf 0 e'.here.tokens = endOf 0 ts) (his : (Item.node none rule parts).Is .topLevel) :
    e'.pending = tokensOf parts ++
      tokensFrom (.ofDocument d ranges) (endOf (endOf 0 e'.here.tokens) (tokensOf parts)) := by
  obtain ⟨after, hafter⟩ := hi.tokensOf_eq
  have hall : tokensOf items = e'.here.tokens ++ e'.pending := by
    rw [h.tokens_eq, e'.tokens_here, List.append_assoc, e'.comments_append]
    exact (tokens_steps (he.fresh trivial)).symm
  have horder := h.builtAllAt.order
  rw [hall] at horder
  rw [List.append_assoc] at hafter
  obtain ⟨-, hpending⟩ := horder.append_inj (hall.symm.trans hafter) hend
  obtain ⟨us, last, hlast, hcloser⟩ := his.closer
  have hplain : last.kind.isPlain = true := by
    revert hcloser
    cases last.kind <;> decide
  rw [Item.tokens] at hlast hpending hafter
  rw [hpending]
  congr 1
  rw [hlast, endOf_append, endOf_cons, endOf_nil]
  refine @tokensFrom_stop _ 0 (ts ++ us) _ _ (Source.ordered_chars d ranges) ?_ hplain
  rw [← h.tokens_eq, hafter, hlast]
  simp only [List.append_assoc, List.singleton_append]

/-- Where a good state has come to the byte of a node that may be taken over, it reads next what the node
was built of, and then what is read from the stop of the node on. -/
theorem Builds.exists_read {e' : State} {n : Node} {rule : Rule} (hd : d.bytes.length ≤ limit)
    (hfits : t.root.Fits d.bytes) (h : Builds True (.ofDocument d ranges) e items t)
    (he : e'.Good True (.ofDocument d ranges)) (hn : n ∈ t.candidatesAt (endOf 0 e'.here.tokens))
    (hr : rule ∈ reusableAtTop) (hs : n.symbol = rule.symbol) :
    ∃ parts u rest, StandsFor False (.ofDocument d ranges) (endOf 0 e'.here.tokens) n.green
        (.node none rule parts) ∧
      (Item.node none rule parts).tokens = u :: rest ∧
      e'.pending = (Item.node none rule parts).tokens ++
        tokensFrom (.ofDocument d ranges) (endOf 0 e'.here.tokens + n.green.width) ∧
      n.startByte = u.start ∧ n.stopByte ≤ (Source.ofDocument d ranges).endOfInput := by
  have hp := Source.coherent_positionAt d ranges
  have hle := Source.endOfInput_le_limit hd ranges
  obtain ⟨herror, -, hstart, hstop, -⟩ := holds_of_mem_candidatesAt hfits hd hn
  obtain ⟨path, hne, hpath⟩ := Node.exists_descend?_of_mem_candidatesBelow hn
  have hl := Tree.locate_of_descend? hd hfits hpath
  have htotal : n.totalStart = endOf 0 e'.here.tokens := by
    show n.startByte - n.green.label.padding.bytes = _
    omega
  rw [htotal] at hl
  obtain ⟨ts, i, hi, hend, hbuilt⟩ := h.locate hd hl hne
  obtain ⟨f, parts, rfl, hclean⟩ := hbuilt.exists_node hr hs
  rw [show n.green.label.hasError = false from herror] at hclean
  obtain ⟨his, -⟩ := ((hi.each h.each).2.1 hr).1 hclean
  have hwidth := hbuilt.width hp hle
  have hpending := h.pending_eq he hi hend his
  obtain ⟨u, rest, hu, hlaid⟩ := exists_head_built hp hbuilt.whole hbuilt.order hle hclean
  rw [← hbuilt.bare] at hlaid
  refine ⟨parts, u, rest, ?_, hu, ?_, ?_, ?_⟩
  · obtain ⟨hparted, -, blanks, hcovers, -⟩ := he.covers_pending
    rw [hpending] at hcovers
    obtain ⟨mid, hcovers, -⟩ := hcovers.split
    refine hbuilt.standsFor hd hparted his hcovers fun v hv => he.ahead v ?_
    rw [← e'.comments_append, hpending]
    exact List.mem_append_right _ (List.mem_append_right _ (List.mem_append_left _ hv))
  · rw [hwidth]
    exact hpending
  · have hpad := congrArg Length.bytes hlaid.of_bare.padding.1
    have hle := hlaid.le
    rw [Length.bytes_beyond, hp.bytes, hp.bytes] at hpad
    omega
  · rw [hstop, hwidth]
    exact hbuilt.order.le.2

end

end C

end Reparse
