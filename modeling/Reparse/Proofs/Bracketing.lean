import Reparse.Proofs.Arithmetic
import Reparse.Proofs.Motion

/-!
# Bracketing

What a builder does with a balanced sequence of calls. The calls are those of nested entries
(`Builder.Takes.closes`), and the tree that they make mirrors the entries (`Mirrors`): every leaf is
where it was said to be, a subtree that was taken over is as it was, only further on, and every inner
node reaches from its first child to where the builder stood when it was closed. Paddings and sizes
are differences of positions, and so they add up to the positions again as long as these are those of
one text (`Length.Precedes`), whatever path they are added up on.
-/

namespace Reparse

/-! ## Positions of one text -/

namespace Length

/-- Whether `b` can be the same position of a text as `a`, or a later one. -/
structure Precedes (a b : Length) : Prop where
  ordered : a = b ∨ a.bytes < b.bytes ∧ a.extent ≤ b.extent
  counted : b.Counted

variable {a b c : Length}

/-- Nothing of a length is beyond it. -/
lemma beyond_self (a : Length) : a.beyond a = .zero := if_neg (Nat.lt_irrefl _)

/-- A length in the domain precedes itself. -/
lemma Counted.refl (h : a.Counted) : a.Precedes a := ⟨.inl rfl, h⟩

namespace Precedes

/-- What comes later has no fewer bytes. -/
lemma bytes_le (h : a.Precedes b) : a.bytes ≤ b.bytes := by
  cases h.ordered with
  | inl heq => rw [heq]
  | inr hlt => exact Nat.le_of_lt hlt.1

/-- Lengths precede each other along a chain. -/
lemma trans (h : a.Precedes b) (h' : b.Precedes c) : a.Precedes c := by
  refine ⟨?_, h'.counted⟩
  cases h.ordered with
  | inl heq =>
    rw [heq]
    exact h'.ordered
  | inr hlt =>
    cases h'.ordered with
    | inl heq =>
      rw [← heq]
      exact .inr hlt
    | inr hlt' =>
      obtain ⟨hb, he⟩ := hlt
      obtain ⟨hb', he'⟩ := hlt'
      refine .inr ⟨Nat.lt_trans hb hb', ?_⟩
      show _ ∨ _
      have he : a.extent.row < b.extent.row ∨
        (a.extent.row = b.extent.row ∧ a.extent.column ≤ b.extent.column) := he
      have he' : b.extent.row < c.extent.row ∨
        (b.extent.row = c.extent.row ∧ b.extent.column ≤ c.extent.column) := he'
      omega

/-- The difference of two positions leads from the one to the other. -/
lemma add_sub (h : a.Precedes b) : a + (b - a) = b := by
  cases h.ordered with
  | inl heq =>
    rw [heq, sub_self, h.counted.add_zero]
  | inr hlt => exact add_sub_of_le h.counted (Nat.le_of_lt hlt.1) hlt.2

/-- So does what a position has beyond an earlier one. -/
lemma add_beyond (h : a.Precedes b) : a + b.beyond a = b := by
  cases h.ordered with
  | inl heq => rw [heq, beyond_self, h.counted.add_zero]
  | inr hlt =>
    rw [beyond, if_pos hlt.1]
    exact h.add_sub

end Precedes

end Length

/-! ## Calls -/

namespace Builder

/-- A call of a builder. -/
inductive Call where
  | startNode (symbol : Symbol) (field : Option FieldId)
  | leaf (l : Leaf)
  | missing (symbol : Symbol) (field : Option FieldId)
  | reuse (g : Green) (field : Option FieldId)
  | finishNode

/-- The builder after a call. -/
def call (b : Builder) : Call → Except Fault Builder
  | .startNode symbol field => .ok (b.startNode symbol field)
  | .leaf l => .ok (b.leaf l)
  | .missing symbol field => .ok (b.missing symbol field)
  | .reuse g field => .ok (b.reuse g field)
  | .finishNode => b.finishNode

/-- Whether what a call adds comes in the order of a text: from where the builder stands to where it
starts, and on to where it stops. -/
def Call.InOrder (b : Builder) : Call → Prop
  | .leaf l => b.position.Precedes l.start ∧ l.start.Precedes l.stop
  | .reuse g _ => g.label.padding.Counted ∧ b.position.Precedes (b.position + g.label.padding) ∧
    (b.position + g.label.padding).Precedes (b.position + g.total)
  | _ => True

/-- Whether a builder takes calls in order and becomes another one. -/
inductive Takes : Builder → List Call → Builder → Prop where
  | nil {b} : Takes b [] b
  | cons {b b' b'' c cs} : c.InOrder b → b.call c = .ok b' → Takes b' cs b'' → Takes b (c :: cs) b''

/-- Calls in a row are taken in two parts. -/
lemma Takes.of_append {b b'' : Builder} {cs ds : List Call} (h : b.Takes (cs ++ ds) b'') :
    ∃ b', b.Takes cs b' ∧ b'.Takes ds b'' := by
  induction cs generalizing b with
  | nil => exact ⟨b, .nil, h⟩
  | cons c cs ih =>
    cases h with
    | cons ho hc hcs =>
      obtain ⟨b', h, h'⟩ := ih hcs
      exact ⟨b', .cons ho hc h, h'⟩

/-- One call is taken in its order. -/
lemma Takes.of_singleton {b b' : Builder} {c : Call} (h : b.Takes [c] b') :
    c.InOrder b ∧ b.call c = .ok b' := by
  cases h with
  | cons ho hc h =>
    cases h
    exact ⟨ho, hc⟩

/-- What is added to a builder between two calls that leave the same nodes open. -/
inductive Entry where
  | leaf (l : Leaf)
  | missing (symbol : Symbol) (field : Option FieldId)
  | reuse (g : Green) (field : Option FieldId)
  | node (symbol : Symbol) (field : Option FieldId) (parts : List Entry)

namespace Entry

mutual

/-- The calls that add an entry. -/
def calls : Entry → List Call
  | leaf l => [.leaf l]
  | missing symbol field => [.missing symbol field]
  | reuse g field => [.reuse g field]
  | node symbol field parts => .startNode symbol field :: (callsOf parts ++ [Call.finishNode])

/-- The calls that add entries, one after the other. -/
def callsOf : List Entry → List Call
  | [] => []
  | e :: es => e.calls ++ callsOf es

end

end Entry

/-- Whether calls add entries and close a node, so often that none of `depth` nodes is left open. -/
inductive Closes : Nat → List Call → Prop where
  | entries (es : List Entry) : Closes 0 (Entry.callsOf es)
  | finishNode {depth cs} (es : List Entry) :
    Closes depth cs → Closes (depth + 1) (Entry.callsOf es ++ .finishNode :: cs)

/-- The calls of a whole entry change nothing about which nodes are closed. -/
lemma Closes.cons {depth : Nat} {cs : List Call} (e : Entry) (h : Closes depth cs) :
    Closes depth (e.calls ++ cs) := by
  cases h with
  | entries es => exact .entries (e :: es)
  | finishNode es h =>
    rw [← List.append_assoc]
    exact .finishNode (e :: es) h

/-- Calls after which no node is left open are those of nested entries. -/
theorem Takes.closes {b b' : Builder} {cs : List Call} (h : b.Takes cs b') (hb : b'.openNodes = []) :
    Closes b.openNodes.length cs := by
  -- by induction on the calls, from the last to the first
  induction h with
  | nil =>
    rw [hb]
    exact .entries []
  | @cons b b' b'' c cs _ hc _ ih =>
    have ih := ih hb
    cases c with
    | startNode symbol field =>
      obtain rfl := Except.ok.inj hc
      cases ih with
      | @finishNode _ cs es h =>
        have heq : Call.startNode symbol field :: (Entry.callsOf es ++ Call.finishNode :: cs) =
            (Entry.node symbol field es).calls ++ cs := by
          rw [Entry.calls]
          simp only [List.cons_append, List.append_assoc, List.nil_append]
        rw [heq]
        exact h.cons _
    | leaf l =>
      obtain rfl := Except.ok.inj hc
      exact ih.cons (.leaf l)
    | missing symbol field =>
      obtain rfl := Except.ok.inj hc
      exact ih.cons (.missing symbol field)
    | reuse g field =>
      obtain rfl := Except.ok.inj hc
      exact ih.cons (.reuse g field)
    | finishNode =>
      have hc : b.finishNode = .ok b' := hc
      rw [Builder.finishNode] at hc
      cases ho : b.openNodes with
      | nil =>
        rw [ho] at hc
        cases hc
      | cons o rest =>
        rw [ho] at hc
        obtain rfl := Except.ok.inj hc
        exact .finishNode [] ih

end Builder

/-! ## Nodes further on -/

/-- Whether a node is another one, further on by `p`. -/
structure Node.Shifted (p : Length) (n m : Node) : Prop where
  green : n.green = m.green
  start : n.start = p + m.start

namespace Node.Shifted

variable {p : Length} {n m : Node}

/-- A shifted node ends by as much later as it starts. -/
lemma stop (h : n.Shifted p m) : n.stop = p + m.stop := by
  rw [Node.stop, Node.stop, h.green, h.start, Length.add_assoc]

/-- Children are shifted with the place that they are laid out from. -/
lemma layOutAfter (t t' : Tree) {a b : Length} (h : a = p + b) (cs : List (Child Green)) :
    List.Forall₂ (Node.Shifted p) ((Green.layOutAfter a cs).map fun e => ⟨t, e.1.node, e.2⟩)
      ((Green.layOutAfter b cs).map fun e => ⟨t', e.1.node, e.2⟩) := by
  induction cs generalizing a b with
  | nil => exact .nil
  | cons c cs ih =>
    subst h
    refine .cons ⟨rfl, Length.add_assoc _ _ _⟩ (ih ?_)
    rw [Length.add_assoc, Length.add_assoc, Length.add_assoc]

/-- The children of a node that is further on are further on. -/
lemma children (h : n.Shifted p m) : List.Forall₂ (Node.Shifted p) n.children m.children := by
  obtain ⟨hg, hs⟩ := h
  obtain ⟨t, ⟨l, cs⟩, a⟩ := n
  obtain ⟨t', g, b⟩ := m
  dsimp only at hg hs
  subst hg hs
  unfold Node.children Node.entries
  rw [List.map_map, List.map_map]
  cases cs with
  | nil => exact .nil
  | cons c cs =>
    refine .cons ⟨rfl, rfl⟩ (layOutAfter t t' ?_ cs)
    rw [Length.add_assoc]

/-- All nodes below a node that is further on are further on. -/
lemma descend? (h : n.Shifted p m) (path : List Nat) :
    Option.Rel (Node.Shifted p) (n.descend? path) (m.descend? path) := by
  induction path generalizing n m with
  | nil => exact .some h
  | cons i path ih =>
    rw [Node.descend?, Node.descend?]
    exact Green.rel_bind (Green.rel_getElem? h.children i) fun _ _ _ _ hc => ih hc

end Node.Shifted

/-! ## Trees that mirror calls -/

namespace Builder

mutual

/-- Whether a node, with its field, is what an entry adds to the first of two builders, which becomes the
second. -/
inductive Mirrors : Builder → Entry → Option FieldId × Node → Builder → Prop where
  | leaf {b l n} :
    n.symbol = l.symbol → n.isExtra = l.isExtra → n.isMissing = false → n.children = [] →
    n.start = l.start → n.stop = l.stop → Mirrors b (.leaf l) (l.field, n) (b.leaf l)
  | missing {b symbol field n} :
    n.symbol = symbol → n.isExtra = false → n.isMissing = true → n.children = [] →
    n.start = b.position → n.stop = b.position →
    Mirrors b (.missing symbol field) (field, n) (b.missing symbol field)
  | reuse {b g field n} :
    n.green = g →
    (∀ path, Option.Rel (Node.Shifted b.position) (n.descend? path)
      ((Node.mk n.tree g g.label.padding).descend? path)) →
    Mirrors b (.reuse g field) (field, n) (b.reuse g field)
  | node {b b' b'' symbol field parts n} :
    n.symbol = symbol → n.isExtra = false → n.isMissing = false →
    MirrorsAll (b.startNode symbol field) parts n.entries b' → b'.finishNode = .ok b'' →
    n.start = (n.children.head?.map (·.start)).getD b.position → n.stop = b'.position →
    Mirrors b (.node symbol field parts) (field, n) b''

/-- The same of entries that are added one after the other, and of as many nodes. -/
inductive MirrorsAll : Builder → List Entry → List (Option FieldId × Node) → Builder → Prop where
  | nil {b} : MirrorsAll b [] [] b
  | cons {b b' b'' e es c cs} :
    Mirrors b e c b' → MirrorsAll b' es cs b'' → MirrorsAll b (e :: es) (c :: cs) b''

end

end Builder

/-- Whether the padding of a tree leads from `p` to where it starts, and its size from there to `q`. -/
structure Green.Leads (p : Length) (g : Green) (q : Length) : Prop where
  padding : g.label.padding.Counted
  start : p.Precedes (p + g.label.padding)
  stop : (p + g.label.padding).Precedes q
  size : p + g.label.padding + g.label.size = q

/-- Whether trees that follow one another lead from `p` to `q`. -/
inductive Green.LeadsAll : Length → List (Child Green) → Length → Prop where
  | nil {p} : LeadsAll p [] p
  | cons {p q r c cs} : c.node.Leads p q → LeadsAll q cs r → LeadsAll p (c :: cs) r

namespace Green

/-- A tree ends no earlier than it begins. -/
lemma Leads.precedes {p q : Length} {g : Green} (h : g.Leads p q) : p.Precedes q := h.start.trans h.stop

/-- Trees in a row end no earlier than they begin. -/
lemma LeadsAll.precedes {p q : Length} {cs : List (Child Green)} (h : LeadsAll p cs q)
    (hp : p.Counted) : p.Precedes q := by
  induction h with
  | nil => exact hp.refl
  | cons hc _ ih => exact hc.precedes.trans (ih hc.stop.counted)

/-- The node that a builder makes over trees that lead to where it stands leads there too. -/
lemma LeadsAll.nodeOver {b : Builder} {p : Length} {cs : List (Child Green)}
    (h : LeadsAll p cs b.position) (hp : p.Counted) (stamp : Stamp) (symbol : Symbol) :
    (b.nodeOver stamp symbol p cs).Leads p b.position := by
  cases h with
  | nil =>
    have hzero : b.position + .zero = b.position := hp.add_zero
    refine ⟨.zero, ?_, ?_, ?_⟩
    · show b.position.Precedes (b.position + .zero)
      rw [hzero]
      exact hp.refl
    · show (b.position + .zero).Precedes b.position
      rw [hzero]
      exact hp.refl
    · show b.position + .zero + b.position.beyond (b.position + .zero) = _
      rw [hzero]
      exact hp.refl.add_beyond
  | @cons _ q _ c cs hc hcs =>
    have hstop : (p + c.node.label.padding).Precedes b.position :=
      hc.stop.trans (hcs.precedes hc.stop.counted)
    exact ⟨hc.padding, hc.start, hstop, hstop.add_beyond⟩

end Green

namespace Builder

mutual

/-- What an entry adds to a builder leads from where it stood to where it stands then, and mirrors the
entry wherever it is put after the first of these positions. -/
theorem Takes.entry : ∀ {e : Entry} {b b' : Builder}, b.Takes e.calls b' → b.position.Counted →
    ∃ f g, b'.openNodes = b.openNodes ∧ b'.children = ⟨f, g⟩ :: b.children ∧
      g.Leads b.position b'.position ∧
      ∀ t, Mirrors b e (f, ⟨t, g, b.position + g.label.padding⟩) b'
  | .leaf l, b, _, h, _ => by
    obtain ⟨⟨hstart, hstop⟩, hc⟩ := h.of_singleton
    obtain rfl := Except.ok.inj hc
    have hposition : (b.leaf l).position = l.stop := if_pos (hstart.trans hstop).bytes_le
    have hpad := hstart.add_beyond
    have hsize := hstop.add_beyond
    refine ⟨l.field, _, rfl, rfl, ?_, fun t => .leaf rfl rfl rfl rfl hpad ?_⟩
    · rw [hposition]
      refine ⟨hstart.counted.beyond, ?_, ?_, ?_⟩
      · exact hpad.symm ▸ hstart
      · exact hpad.symm ▸ hstop
      · exact hpad.symm ▸ hsize
    · exact hpad.symm ▸ hsize
  | .missing symbol field, b, _, h, hp => by
    obtain ⟨-, hc⟩ := h.of_singleton
    obtain rfl := Except.ok.inj hc
    have hzero : b.position + .zero = b.position := hp.add_zero
    refine ⟨field, _, rfl, rfl, ⟨.zero, ?_, ?_, ?_⟩, fun t => .missing rfl rfl rfl rfl hzero ?_⟩
    · exact hzero.symm ▸ hp.refl
    · exact hzero.symm ▸ hp.refl
    · exact hzero.symm ▸ hzero
    · exact hzero.symm ▸ hzero
  | .reuse g field, b, _, h, _ => by
    obtain ⟨⟨hpad, hstart, hstop⟩, hc⟩ := h.of_singleton
    obtain rfl := Except.ok.inj hc
    refine ⟨field, g, rfl, rfl, ⟨hpad, hstart, hstop, Length.add_assoc _ _ _⟩, fun t => .reuse rfl ?_⟩
    intro path
    -- the subtree is the same one; only the place it is laid at has moved
    have hshifted : Node.Shifted b.position ⟨t, g, b.position + g.label.padding⟩
      ⟨t, g, g.label.padding⟩ := ⟨rfl, rfl⟩
    exact hshifted.descend? path
  | .node symbol field parts, b, b'', h, hp => by
    cases h with
    | cons _ hc h =>
      obtain rfl := Except.ok.inj hc
      obtain ⟨b', hparts, hlast⟩ := h.of_append
      obtain ⟨cs, hopen, hchildren, hleads, hmirrors⟩ := Takes.entries hparts hp
      have hfinish : b'.finishNode = .ok b'' := hlast.of_singleton.2
      have hopen : b'.openNodes = ⟨symbol, field, b.position, b.children⟩ :: b.openNodes := hopen
      have hrev : b'.children.reverse = cs := by
        rw [hchildren, List.reverse_append, List.reverse_reverse]
        rfl
      have hclosed := hfinish
      rw [Builder.finishNode, hopen] at hclosed
      have hclosed := Except.ok.inj hclosed
      -- the children that the parts added are those of the node, and it spans what they span
      have hnode := hleads.nodeOver (b := b'.stamp.2) hp b'.stamp.1 symbol
      refine ⟨field, b'.stamp.2.nodeOver b'.stamp.1 symbol b.position cs, ?_, ?_, ?_, fun t =>
        .node rfl rfl rfl ?_ hfinish ?_ hnode.size⟩
      · rw [← hclosed]
      · rw [← hrev, ← hclosed]
        rfl
      · rw [← hclosed]
        exact hnode
      · have hall := hmirrors t
        cases cs with
        | nil => exact hall
        | cons c cs => exact hall
      · cases cs with
        | nil => exact hp.add_zero
        | cons c cs => rfl

/-- The calls of some entries add trees to the open node that lead on from its position and mirror the
entries. -/
theorem Takes.entries : ∀ {es : List Entry} {b b' : Builder}, b.Takes (Entry.callsOf es) b' →
    b.position.Counted →
    ∃ cs : List (Child Green), b'.openNodes = b.openNodes ∧ b'.children = cs.reverse ++ b.children ∧
      Green.LeadsAll b.position cs b'.position ∧
      ∀ t, MirrorsAll b es
        ((Green.layOutAfter b.position cs).map fun e => (e.1.field, ⟨t, e.1.node, e.2⟩)) b'
  | [], b, _, h, _ => by
    cases h
    exact ⟨[], rfl, rfl, .nil, fun t => .nil⟩
  | e :: es, b, b'', h, hp => by
    obtain ⟨b', he, hes⟩ := h.of_append
    obtain ⟨f, g, hopen, hchildren, hleads, hmirrors⟩ := Takes.entry he hp
    obtain ⟨cs, hopen', hchildren', hleads', hmirrors'⟩ := Takes.entries hes hleads.stop.counted
    refine ⟨⟨f, g⟩ :: cs, hopen'.trans hopen, ?_, .cons hleads hleads', fun t => .cons (hmirrors t) ?_⟩
    · rw [hchildren', hchildren, List.reverse_cons, List.append_assoc]
      rfl
    · rw [hleads.size]
      exact hmirrors' t

end

/-- A builder that is new takes the calls of some entries if no node is open in the end. -/
lemma Takes.exists_entries {grammar : Grammar} {generation : Nat} {calls : List Call} {b : Builder}
    (h : (Builder.new grammar generation).Takes calls b) (hopen : b.openNodes = []) :
    ∃ es, calls = Entry.callsOf es := by
  have hcloses := h.closes hopen
  generalize hdepth : (Builder.new grammar generation).openNodes.length = depth at hcloses
  cases hcloses with
  | entries es => exact ⟨es, rfl⟩
  | finishNode es _ => cases hdepth

/-- A tree can be closed only if no node is open. -/
lemma openNodes_of_finish {b : Builder} {stop : Length} {ranges : List Span} {t : Tree}
    (ht : b.finish stop ranges = .ok t) : b.openNodes = [] := by
  cases ho : b.openNodes with
  | nil => rfl
  | cons o rest =>
    rw [Builder.finish, ho] at ht
    cases ht

/-- The root of a tree that is closed is the one node that was made, stretched to the end. -/
lemma finish_of_leads {b : Builder} {c : Child Green} {stop : Length} {ranges : List Span} {t : Tree}
    (hchildren : b.children = [c]) (hleads : c.node.Leads .zero b.position)
    (hstop : b.position.Precedes stop) (ht : b.finish stop ranges = .ok t) :
    t.rootNode.entries = (Node.mk t c.node (.zero + c.node.label.padding)).entries ∧
      t.rootNode.symbol = c.node.label.symbol ∧
      t.rootNode.start = .zero + c.node.label.padding ∧ t.rootNode.stop = stop := by
  have hroot : t = ⟨c.node.withLabel (rootLabel b.generation stop c.node.label), b.grammar, ranges⟩ := by
    rw [Builder.finish, openNodes_of_finish ht, hchildren] at ht
    exact (Except.ok.inj ht).symm
  have hzero : .zero + c.node.label.padding = c.node.label.padding := hleads.padding.zero_add
  have hlabel : t.root.label = rootLabel b.generation stop c.node.label := by
    rw [hroot, Green.label_withLabel]
  have hpad : t.root.label.padding = c.node.label.padding := by
    rw [hlabel]
    rfl
  refine ⟨?_, ?_, hpad.trans hzero.symm, ?_⟩
  · rw [Node.entries, Node.entries, Tree.rootNode, hpad, hzero]
    congr 2
    rw [hroot, Green.children_withLabel]
  · show t.root.label.symbol = _
    rw [hlabel]
    rfl
  · have hprecedes := (hzero ▸ hleads.stop).trans hstop
    have hsize : t.root.label.size = stop - c.node.label.padding := by
      rw [hlabel]
      exact if_pos hprecedes.bytes_le
    rw [Node.stop, Tree.rootNode, hpad, hsize]
    exact hprecedes.add_sub

/-- What a builder makes of a balanced sequence of calls in the order of a text, the first of which opens
the root, mirrors the calls: they are those of one entry, and the children of the root are what the parts
of this entry add. The root starts where its first child does and ends where the tree was closed. -/
theorem Takes.mirrors_calls {grammar : Grammar} {generation : Nat} {calls : List Call} {b : Builder}
    {symbol : Symbol} {field : Option FieldId} {stop : Length} {ranges : List Span} {t : Tree}
    (h : (Builder.new grammar generation).Takes calls b)
    (hopens : calls.head? = some (.startNode symbol field)) (hone : b.children.length = 1)
    (hstop : b.position.Precedes stop) (ht : b.finish stop ranges = .ok t) :
    ∃ parts b', calls = (Entry.node symbol field parts).calls ∧
      MirrorsAll ((Builder.new grammar generation).startNode symbol field) parts t.rootNode.entries b' ∧
      b'.finishNode = .ok b ∧ t.rootNode.symbol = symbol ∧
      t.rootNode.start = (t.rootNode.children.head?.map (·.start)).getD .zero ∧
      t.rootNode.stop = stop := by
  obtain ⟨es, rfl⟩ := h.exists_entries (openNodes_of_finish ht)
  obtain ⟨cs, -, hchildren, hleads, hmirrors⟩ := h.entries .zero
  have hmirrors := hmirrors t
  have hchildren : b.children = cs.reverse := hchildren.trans (List.append_nil _)
  obtain ⟨c, rfl⟩ : ∃ c, cs = [c] := by
    rw [hchildren, List.length_reverse] at hone
    exact List.length_eq_one_iff.1 hone
  have hleads : c.node.Leads .zero b.position := by
    cases hleads with
    | cons hc hnil =>
      cases hnil
      exact hc
  obtain ⟨hentries, hsymbol, hroot, hend⟩ := finish_of_leads hchildren hleads hstop ht
  -- there is one entry, and it begins with the call that opens the root
  cases hmirrors with
  | @cons _ _ _ e es _ _ he hnil =>
    cases hnil
    have he : Mirrors _ e (c.field, ⟨t, c.node, .zero + c.node.label.padding⟩) _ := he
    rw [Entry.callsOf, Entry.callsOf, List.append_nil] at hopens ⊢
    generalize hchild : (c.field, Node.mk t c.node (.zero + c.node.label.padding)) = child at he
    cases he with
    | leaf => cases hopens
    | missing => cases hopens
    | reuse => cases hopens
    | @node _ b' _ symbol' field' parts n hsym _ _ hall hfinish hstart _ =>
      obtain ⟨rfl, rfl⟩ := Call.startNode.inj (Option.some.inj hopens)
      obtain ⟨-, rfl⟩ := Prod.mk.inj hchild
      refine ⟨parts, b', rfl, ?_, hfinish, hsymbol.trans hsym, ?_, hend⟩
      · rw [hentries]
        exact hall
      · rw [Node.children, hentries]
        exact hroot.trans hstart

/-- A node over a token at the second byte, and after it a token that was expected. -/
theorem Takes.mirrors_calls_word :
    ∃ b t, (Builder.new C.grammar 0).Takes [.startNode .error none,
        .leaf ⟨.error, none, ⟨1, ⟨0, 1⟩⟩, ⟨3, ⟨0, 3⟩⟩, 1, false⟩, .missing .error none, .finishNode] b ∧
      b.finish ⟨4, ⟨1, 0⟩⟩ [] = .ok t ∧ t.rootNode.stop = ⟨4, ⟨1, 0⟩⟩ ∧
      t.rootNode.start = (t.rootNode.children.head?.map (·.start)).getD .zero := by
  have hword : (Length.mk 1 ⟨0, 1⟩).Precedes ⟨3, ⟨0, 3⟩⟩ :=
    ⟨.inr ⟨by decide, by decide⟩, by decide, by decide, by decide⟩
  have hblank : Length.zero.Precedes ⟨1, ⟨0, 1⟩⟩ :=
    ⟨.inr ⟨by decide, by decide⟩, by decide, by decide, by decide⟩
  have hbreak : (Length.mk 3 ⟨0, 3⟩).Precedes ⟨4, ⟨1, 0⟩⟩ :=
    ⟨.inr ⟨by decide, by decide⟩, by decide, by decide, by decide⟩
  have htakes := @Takes.cons (.new C.grammar 0) _ _ (.startNode .error none) _ trivial rfl
    (.cons (c := .leaf ⟨.error, none, ⟨1, ⟨0, 1⟩⟩, ⟨3, ⟨0, 3⟩⟩, 1, false⟩) ⟨hblank, hword⟩ rfl
      (.cons (c := .missing .error none) trivial rfl (.cons (c := .finishNode) trivial rfl .nil)))
  obtain ⟨-, -, -, -, -, -, hstart, hend⟩ := htakes.mirrors_calls rfl rfl hbreak rfl
  exact ⟨_, _, htakes, rfl, hend, hstart⟩

end Builder

end Reparse
