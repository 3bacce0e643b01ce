import Reparse.Proofs.Origins

/-!
# Summaries

What a node records of itself and of the nodes below it: whether it is named, whether there is an error,
and how many children are named. It is recorded when the node is made, and neither edits nor the use of
the node in another tree record it anew. It stays exact all the same (`Tree.Grown.summaries_exact`):
builders make exact summaries of exact ones (`Builder.holds_of_finish`), and edits change none of what
is recorded (`Green.summary_edit`).
-/

namespace Reparse

/-! ## Exact summaries -/

/-- What a node records of itself and of the nodes below it. -/
structure Summary where
  symbol : Symbol
  isNamed : Bool
  isMissing : Bool
  hasError : Bool
  namedChildCount : Nat

/-- The summary among what a node records. -/
def Label.summary (l : Label) : Summary :=
  ⟨l.symbol, l.isNamed, l.isMissing, l.hasError, l.namedChildCount⟩

/-- Whether the summary of a node agrees with the grammar and with the summaries of its children. The named
ones are counted in 32 bits, and a node that is missing has no children. -/
structure Summary.Exact (grammar : Grammar) (s : Summary) (parts : List Summary) : Prop where
  isNamed : s.isNamed = grammar.isNamed s.symbol
  hasError : s.hasError = (s.symbol == .error || s.isMissing || parts.any (·.hasError))
  namedChildCount : s.namedChildCount = Span.countOf (parts.countP (·.isNamed))
  childless : s.isMissing = true → parts = []

namespace Green

/-- The summaries of some children. -/
def summaries (cs : List (Child Green)) : List Summary := cs.map (·.node.label.summary)

mutual

/-- Whether the summaries of all nodes of a tree are exact. -/
def Summed (grammar : Grammar) : Green → Prop
  | node l cs => l.summary.Exact grammar (summaries cs) ∧ SummedAll grammar cs

/-- The same of several trees. -/
def SummedAll (grammar : Grammar) : List (Child Green) → Prop
  | [] => True
  | c :: rest => c.node.Summed grammar ∧ SummedAll grammar rest

end

variable {grammar : Grammar} {g k : Green} {cs : List (Child Green)} {path : List Nat}

/-- Trees sum up what is below them if each does. -/
lemma summedAll_iff : SummedAll grammar cs ↔ ∀ c ∈ cs, c.node.Summed grammar := by
  induction cs with
  | nil => exact ⟨fun _ _ hc => absurd hc List.not_mem_nil, fun _ => trivial⟩
  | cons c cs ih => rw [SummedAll, ih, List.forall_mem_cons]

/-- Below a tree that sums up what is below it every tree does. -/
lemma Summed.of_has (h : g.Summed grammar) (hk : g.Has path k) : k.Summed grammar := by
  induction hk with
  | self => exact h
  | child hc _ ih => exact ih (summedAll_iff.1 h.2 _ (List.mem_of_getElem? hc))

/-- A tree is unmarked if no node of it has a mark. -/
lemma unmarked_iff : g.Unmarked ↔ ∀ path k, g.Has path k → k.label.hasChanges = false :=
  ⟨fun h path k hk => (has_iff.1 hk).elim fun x hx => h path x k hx,
    fun h path x k hk => h path k (has_iff.2 ⟨x, hk⟩)⟩

/-! ## Edits -/

/-- An edit leaves the summary of a tree. -/
lemma summary_edit (g : Green) (generation : Nat) (place : List Nat) (e : Edit) :
    (g.edit generation place e).label.summary = g.label.summary := by
  obtain ⟨l, cs⟩ := g
  rw [edit]
  split <;> rfl

/-- An edit leaves the summaries of children. -/
lemma summaries_editChildren (generation : Nat) (place : List Nat) (e : Edit) (insertion : Bool)
    (index : Nat) (left : Length) (cs : List (Child Green)) :
    summaries (editChildren generation place e insertion index left cs) = summaries cs := by
  induction cs generalizing e insertion index left with
  | nil => rfl
  | cons c cs ih =>
    have hrest := fun e insertion index left => ih e insertion index left
    simp only [summaries] at hrest ⊢
    rw [editChildren]
    split
    · rw [List.map_cons, hrest, List.map_cons]
    split
    · rfl
    split <;> rw [List.map_cons, hrest, List.map_cons, summary_edit]

mutual

/-- An edit changes nothing that is summed up. -/
lemma Summed.edit : ∀ {g : Green}, g.Summed grammar → ∀ (generation : Nat) (place : List Nat) (e : Edit),
    (g.edit generation place e).Summed grammar
  | node l cs, ⟨hl, hs⟩, generation, place, e => by
    rw [Green.edit]
    split
    · exact ⟨hl, hs⟩
    · refine ⟨?_, hs.edit generation place e e.isInsertion 0 .zero⟩
      rw [summaries_editChildren]
      exact ⟨hl.isNamed, hl.hasError, hl.namedChildCount, hl.childless⟩

/-- Trees that sum up what is below them do so after an edit. -/
lemma SummedAll.edit : ∀ {cs : List (Child Green)}, SummedAll grammar cs → ∀ (generation : Nat)
    (place : List Nat) (e : Edit) (insertion : Bool) (index : Nat) (left : Length),
    SummedAll grammar (editChildren generation place e insertion index left cs)
  | [], _, _, _, _, _, _, _ => trivial
  | c :: rest, ⟨hc, hr⟩, generation, place, e, insertion, index, left => by
    rw [editChildren]
    split
    · exact ⟨hc, hr.edit generation place e insertion (index + 1) _⟩
    split
    · exact ⟨hc, hr⟩
    split
    · exact ⟨hc.edit generation (index :: place) _,
        hr.edit generation place e.absorbed false (index + 1) _⟩
    · exact ⟨hc.edit generation (index :: place) _,
        hr.edit generation place e insertion (index + 1) _⟩

end

end Green

/-! ## Builders -/

namespace Builder

open Green (summaries)

variable {grammar : Grammar} {P : Green → Prop} {b b' : Builder} {cs : List Call} {c : Call}

/-- Whether a property passes to the nodes that builders make: from children to a node over them whose
summary is exact and that has no mark, and from a node to the root of a tree. -/
structure Passes (grammar : Grammar) (P : Green → Prop) : Prop where
  node : ∀ {l cs}, l.summary.Exact grammar (summaries cs) → l.hasChanges = false →
    (∀ c ∈ cs, P c.node) → P (.node l cs)
  root : ∀ {l cs}, P (.node l cs) → ∀ generation stop, P (.node (rootLabel generation stop l) cs)

/-- Whether all nodes under construction have a property. -/
structure Consists (P : Green → Prop) (b : Builder) : Prop where
  children : ∀ c ∈ b.children, P c.node
  siblings : ∀ o ∈ b.openNodes, ∀ c ∈ o.siblings, P c.node

/-- A node over some children sums them up exactly. -/
lemma exact_nodeOver (b : Builder) (stamp : Stamp) (symbol : Symbol) (start : Length)
    (cs : List (Child Green)) :
    (b.nodeOver stamp symbol start cs).label.summary.Exact b.grammar (summaries cs) := by
  refine ⟨rfl, ?_, ?_, nofun⟩
  · show (symbol == .error || cs.any (·.node.label.hasError)) = _
    rw [summaries, List.any_map]
    exact congrArg (· || _) (Bool.or_false _).symm
  · show Span.countOf (cs.countP (·.node.label.isNamed)) = _
    rw [summaries, List.countP_map]
    rfl

/-- A call keeps a property of all nodes under construction. -/
lemma Consists.call (h : b.Consists P) (hp : Passes b.grammar P)
    (hreuse : ∀ g field, c = .reuse g field → P g) (hc : b.call c = .ok b') :
    b'.Consists P ∧ b'.grammar = b.grammar := by
  have hnil : ∀ c ∈ ([] : List (Child Green)), P c.node := fun _ hc => absurd hc List.not_mem_nil
  have hpush : ∀ {field : Option FieldId} {g : Green}, P g →
      ∀ c ∈ (⟨field, g⟩ :: b.children : List (Child Green)), P c.node := fun hg =>
    List.forall_mem_cons.2 ⟨hg, h.children⟩
  cases c with
  | startNode symbol field =>
    obtain rfl := Except.ok.inj hc
    exact ⟨⟨hnil, List.forall_mem_cons.2 ⟨h.children, h.siblings⟩⟩, rfl⟩
  | leaf l =>
    obtain rfl := Except.ok.inj hc
    refine ⟨⟨hpush (hp.node ⟨rfl, ?_, rfl, nofun⟩ rfl hnil), h.siblings⟩, rfl⟩
    exact ((Bool.or_false _).trans (Bool.or_false _)).symm
  | missing symbol field =>
    obtain rfl := Except.ok.inj hc
    refine ⟨⟨hpush (hp.node ⟨rfl, ?_, rfl, fun _ => rfl⟩ rfl hnil), h.siblings⟩, rfl⟩
    exact ((Bool.or_false _).trans (Bool.or_true _)).symm
  | reuse g field =>
    obtain rfl := Except.ok.inj hc
    exact ⟨⟨hpush (hreuse g field rfl), h.siblings⟩, rfl⟩
  | finishNode =>
    have hc : b.finishNode = .ok b' := hc
    rw [finishNode] at hc
    cases ho : b.openNodes with
    | nil =>
      rw [ho] at hc
      cases hc
    | cons o rest =>
      rw [ho] at hc
      obtain rfl := Except.ok.inj hc
      obtain ⟨hsiblings, hrest⟩ := List.forall_mem_cons.1 (ho ▸ h.siblings)
      refine ⟨⟨List.forall_mem_cons.2 ⟨hp.node ?_ rfl ?_, hsiblings⟩, hrest⟩, rfl⟩
      · exact exact_nodeOver b.stamp.2 _ _ _ _
      · exact fun c hc => h.children c (List.mem_reverse.1 hc)

/-- The builder after a call; a call that is out of turn changes nothing. -/
def take (b : Builder) (c : Call) : Builder :=
  match b.call c with
  | .ok b' => b'
  | .error _ => b

/-- The builder with all nodes closed that are open. -/
def closed (b : Builder) : Builder := (List.replicate b.openNodes.length .finishNode).foldl take b

/-- Whether a tree is what a new builder makes of some calls, where nodes that are left open are closed. -/
def Builds (grammar : Grammar) (calls : List Call) (t : Tree) : Prop :=
  ∃ generation stop ranges, (calls.foldl take (.new grammar generation)).closed.finish stop ranges = .ok t

/-- Calls one after the other keep a property of all nodes under construction. -/
lemma Consists.takes (h : b.Consists P) (hp : Passes b.grammar P)
    (hreuse : ∀ g field, .reuse g field ∈ cs → P g) :
    (cs.foldl take b).Consists P ∧ (cs.foldl take b).grammar = b.grammar := by
  induction cs generalizing b with
  | nil => exact ⟨h, rfl⟩
  | cons c cs ih =>
    have htake : (b.take c).Consists P ∧ (b.take c).grammar = b.grammar := by
      rw [take]
      cases hc : b.call c with
      | error e => exact ⟨h, rfl⟩
      | ok b₁ => exact h.call hp (fun g field heq => hreuse g field (heq ▸ List.mem_cons_self ..)) hc
    obtain ⟨h₁, hgrammar⟩ := htake
    obtain ⟨h', hgrammar'⟩ := ih h₁ (hgrammar ▸ hp)
      fun g field hmem => hreuse g field (List.mem_cons_of_mem c hmem)
    exact ⟨h', hgrammar'.trans hgrammar⟩

/-- What passes to the nodes that builders make and holds of all that is taken over holds of a tree. -/
theorem holds_of_builds {t : Tree} (h : Builds grammar cs t) (hp : Passes grammar P)
    (hreuse : ∀ g field, .reuse g field ∈ cs → P g) : P t.root ∧ t.grammar = grammar := by
  obtain ⟨generation, stop, ranges, hfinish⟩ := h
  obtain ⟨hb, hgrammar⟩ := Consists.takes (b := .new grammar generation) ⟨nofun, nofun⟩ hp hreuse
  have hnone : ∀ n g field, .reuse g field ∈ List.replicate n Call.finishNode → P g :=
    fun n g field hmem => by cases (List.mem_replicate.1 hmem).2
  obtain ⟨hclosed, hclosed'⟩ := hb.takes (hgrammar ▸ hp) (hnone _)
  rw [finish] at hfinish
  split at hfinish
  · cases hfinish
  · obtain rfl := Except.ok.inj hfinish
    have hp : Passes (closed (cs.foldl take (.new grammar generation))).grammar P := by
      rwa [closed, hclosed', hgrammar]
    refine ⟨?_, hclosed'.trans hgrammar⟩
    have hroot : ∀ g generation, P g → P (g.withLabel (rootLabel generation stop g.label)) := by
      rintro ⟨l, cs⟩ generation hg
      exact hp.root hg _ _
    apply hroot
    split
    · rename_i heq
      exact hclosed.children _ (heq ▸ List.mem_singleton_self _)
    · exact hp.node (exact_nodeOver _ _ _ _ _) rfl fun c hc => hclosed.children c (List.mem_reverse.1 hc)

/-- Calls that a builder performs are those that it takes. -/
lemma foldl_take (h : cs.foldlM call b = .ok b') : cs.foldl take b = b' := by
  induction cs generalizing b with
  | nil => exact Except.ok.inj h
  | cons c cs ih =>
    rw [List.foldlM_cons] at h
    obtain ⟨b₁, hc, hrest⟩ := C.bind_ok h
    rw [List.foldl_cons, take, hc]
    exact ih hrest

/-- Calls that are in turn make a tree as they are. -/
lemma builds_of_ok {generation : Nat} {stop : Length} {ranges : List Span} {t : Tree}
    (hcalls : cs.foldlM call (.new grammar generation) = .ok b) (hfinish : b.finish stop ranges = .ok t) :
    Builds grammar cs t := by
  have hopen : b.openNodes = [] := by
    rw [finish] at hfinish
    split at hfinish
    · cases hfinish
    · assumption
  refine ⟨generation, stop, ranges, ?_⟩
  rw [foldl_take hcalls, closed, hopen]
  exact hfinish

/-- Builders keep that trees sum up what is below them. -/
lemma passes_summed : Passes grammar (Green.Summed grammar) where
  node hexact _ hs := ⟨hexact, Green.summedAll_iff.2 hs⟩
  root h _ _ := ⟨⟨h.1.isNamed, h.1.hasError, h.1.namedChildCount, h.1.childless⟩, h.2⟩

/-- Builders keep that trees are unmarked. -/
lemma passes_unmarked : Passes grammar Green.Unmarked where
  node _ hmark hs := by
    rw [Green.unmarked_iff]
    intro path k hk
    cases hk with
    | self => exact hmark
    | child hc hk => exact Green.unmarked_iff.1 (hs _ (List.mem_of_getElem? hc)) _ _ hk
  root h _ _ := by
    rw [Green.unmarked_iff] at h ⊢
    intro path k hk
    cases hk with
    | self =>
      have hl := h [] _ .self
      exact hl
    | child hc hk => exact h _ _ (.child hc hk)

end Builder

/-! ## Trees -/

/-- Whether a tree of a grammar was built by calls that take over nothing but subtrees of such trees, and
edited since. -/
inductive Tree.Grown (grammar : Grammar) : Tree → Prop where
  | built {calls : List Builder.Call} {t : Tree} (Old : Tree → Prop) :
    (∀ old, Old old → old.Grown grammar) →
    (∀ g field, .reuse g field ∈ calls →
      ∃ old, Old old ∧ ∃ path n, old.rootNode.descend? path = some n ∧ n.green = g) →
    Builder.Builds grammar calls t → t.Grown grammar
  | edited {t : Tree} (generation : Nat) (e : Edit) : t.Grown grammar → (t.edit generation e).Grown grammar

/-- A tree that was made for a grammar sums up what is below it. -/
lemma Tree.Grown.summed {grammar : Grammar} {t : Tree} (h : t.Grown grammar) : t.root.Summed grammar := by
  induction h with
  | built Old _ hreuse hbuilds ih =>
    refine (Builder.holds_of_builds hbuilds Builder.passes_summed fun g field hg => ?_).1
    obtain ⟨old, hold, path, n, hn, rfl⟩ := hreuse g field hg
    exact (ih old hold).of_has (Node.has_of_descend? hn).1
  | edited generation e _ ih => exact ih.edit generation [] e

/-! ## Nodes -/

namespace Green

variable {grammar : Grammar} {g : Green}

/-- There is an error in a tree if and only if some node of it is an error or missing. -/
lemma Summed.hasError_iff (h : g.Summed grammar) : g.label.hasError = true ↔
    ∃ path k, g.Has path k ∧ (k.label.symbol = .error ∨ k.label.isMissing = true) := by
  induction g using Green.induct with
  | node l cs ih =>
    have hparts : (summaries cs).any (·.hasError) = true ↔ ∃ c ∈ cs, c.node.label.hasError = true := by
      rw [summaries, List.any_map, List.any_eq_true]
      rfl
    have hexact : l.hasError = true ↔ (l.symbol = .error ∨ l.isMissing = true) ∨
        ∃ c ∈ cs, c.node.label.hasError = true := by
      rw [← hparts, ← beq_iff_eq (a := l.symbol), ← Bool.or_eq_true, ← Bool.or_eq_true]
      exact Eq.congr_left h.1.hasError
    refine hexact.trans ⟨?_, ?_⟩
    · rintro (hself | ⟨c, hc, herror⟩)
      · exact ⟨[], _, .self, hself⟩
      · obtain ⟨path, k, hk, herror⟩ := (ih c hc (summedAll_iff.1 h.2 c hc)).1 herror
        obtain ⟨i, hi⟩ := List.getElem?_of_mem hc
        exact ⟨i :: path, k, .child hi hk, herror⟩
    · rintro ⟨path, k, hk, herror⟩
      cases hk with
      | self => exact .inl herror
      | @child _ _ i c path k hi hk =>
        have hc := List.mem_of_getElem? hi
        exact .inr ⟨c, hc, (ih c hc (summedAll_iff.1 h.2 c hc)).2 ⟨path, k, hk, herror⟩⟩

end Green

/-- What a path leads to in the tree of a node is that of a node at the path. -/
lemma Node.exists_descend?_of_has {n : Node} {path : List Nat} {k : Green} (h : n.green.Has path k) :
    ∃ m, n.descend? path = some m ∧ m.green = k := by
  generalize hg : n.green = g at h
  induction h generalizing n with
  | self => exact ⟨n, rfl, hg⟩
  | @child l cs i c path k hc _ ih =>
    have hi : ((Green.layOut n.start n.green.children)[i]?).map (·.1) = some c := by
      rw [← List.getElem?_map, Green.map_fst_layOut, hg]
      exact hc
    obtain ⟨⟨c, start⟩, he, rfl⟩ := Option.map_eq_some_iff.1 hi
    obtain ⟨m, hm, hk⟩ := @ih ⟨n.tree, c.node, start⟩ rfl
    refine ⟨m, ?_, hk⟩
    rw [descend?, child?_eq, he]
    exact hm

/-- There are as many named children as children that are named. -/
lemma Node.length_namedChildren (n : Node) :
    n.namedChildren.length = n.green.children.countP (·.node.label.isNamed) := by
  rw [namedChildren, ← List.countP_eq_length_filter, children, entries, List.map_map, List.countP_map,
    ← Green.map_fst_layOut n.start n.green.children, List.countP_map]
  simp only [Green.map_fst_layOut]
  rfl

/-- A symbol is named if it is listed as a regular one or is that of errors. -/
lemma Grammar.isNamed_iff {grammar : Grammar} {s : Symbol} : grammar.isNamed s = true ↔
    (∃ info, grammar.symbols[s.raw]? = some info ∧ info.kind = .regular) ∨ s = .error := by
  rw [isNamed, beq_iff_eq, symbolKind?, info?]
  by_cases h : s = .error
  · rw [if_pos h]
    exact ⟨fun _ => .inr h, fun _ => rfl⟩
  · rw [if_neg h, Option.map_eq_some_iff]
    exact ⟨.inl, fun h' => h'.resolve_right h⟩

/-- The summaries of nodes are exact. Let a tree be built by any calls of a builder, in turn or not, where
all that is taken over are subtrees of such trees of the same grammar, and be edited in any way. Then every
node of it has an error if and only if it or a node below it is an error or missing; it counts its named
children, as far as 32 bits hold their number; and it is named if and only if the grammar lists its symbol
as a regular one or it is an error. A tree that was only built has no marks if none of the subtrees that
were taken over has. -/
theorem Tree.Grown.summaries_exact {grammar : Grammar} {t : Tree} (h : t.Grown grammar)
    {path : List Nat} {n : Node} (hn : t.rootNode.descend? path = some n) :
    (n.hasError = true ↔
      ∃ below m, n.descend? below = some m ∧ (m.isError = true ∨ m.isMissing = true)) ∧
    n.namedChildCount = n.namedChildren.length % 2 ^ 32 ∧
    (n.namedChildren.length < 2 ^ 32 → n.namedChildCount = n.namedChildren.length) ∧
    (n.isNamed = true ↔
      (∃ info, grammar.symbols[n.symbol.raw]? = some info ∧ info.kind = .regular) ∨ n.isError = true) ∧
    ∀ calls, Builder.Builds grammar calls t →
      (∀ g field, .reuse g field ∈ calls → g.Unmarked) → n.hasChanges = false := by
  obtain ⟨hhas, -⟩ := Node.has_of_descend? hn
  have hsummed : n.green.Summed grammar := h.summed.of_has hhas
  have hexact : n.green.label.summary.Exact grammar (Green.summaries n.green.children) := by
    obtain ⟨tree, ⟨l, cs⟩, start⟩ := n
    exact hsummed.1
  have hcount : n.namedChildCount = n.namedChildren.length % 2 ^ 32 := by
    rw [Node.length_namedChildren]
    refine hexact.namedChildCount.trans ?_
    rw [Green.summaries, List.countP_map]
    rfl
  refine ⟨hsummed.hasError_iff.trans ⟨?_, ?_⟩, hcount, fun hlt => ?_, ?_, fun calls hbuilds hreuse => ?_⟩
  · rintro ⟨below, k, hk, herror⟩
    obtain ⟨m, hm, rfl⟩ := Node.exists_descend?_of_has hk
    exact ⟨below, m, hm, herror.imp_left beq_iff_eq.2⟩
  · rintro ⟨below, m, hm, herror⟩
    exact ⟨below, m.green, (Node.has_of_descend? hm).1, herror.imp_left beq_iff_eq.1⟩
  · rw [hcount, Nat.mod_eq_of_lt hlt]
  · rw [Node.isError, beq_iff_eq, ← Grammar.isNamed_iff]
    exact Eq.congr_left hexact.isNamed
  · obtain ⟨hunmarked, -⟩ := Builder.holds_of_builds hbuilds Builder.passes_unmarked hreuse
    exact Green.unmarked_iff.1 hunmarked _ _ hhas

/-- A word that is taken over stands before a semicolon that is missing, and nothing encloses them. -/
theorem Tree.Grown.summaries_exact_repaired :
    ∃ (t : Tree) (n : Node), t.Grown C.grammar ∧ t.rootNode.descend? [] = some n ∧ n.childCount = 2 ∧
      n.namedChildCount = n.namedChildren.length ∧ n.isNamed = true ∧ n.hasChanges = false ∧
      ∃ below m, n.descend? below = some m ∧ (m.isError = true ∨ m.isMissing = true) := by
  let word : Leaf := ⟨C.Terminal.identifier.symbol, none, .zero, ⟨1, ⟨0, 1⟩⟩, 0, false⟩
  obtain ⟨t₁, h₁⟩ : ∃ t, Builder.Builds C.grammar [.leaf word] t :=
    ⟨_, 0, ⟨1, ⟨0, 1⟩⟩, [.document], rfl⟩
  let calls : List Builder.Call := [.reuse t₁.root none, .missing C.Terminal.semicolon.symbol none]
  have hword : ∀ g field, (.reuse g field : Builder.Call) ∉ [Builder.Call.leaf word] := fun g field hg => by
    cases List.mem_singleton.1 hg
  have hreuse : ∀ g field, .reuse g field ∈ calls → g = t₁.root := fun g field hg => by
    rcases List.mem_cons.1 hg with heq | hg
    · exact (Builder.Call.reuse.inj heq).1
    · cases List.mem_singleton.1 hg
  obtain ⟨t₂, h₂, hchildren, herror, hnamed⟩ : ∃ t, Builder.Builds C.grammar calls t ∧
      t.rootNode.childCount = 2 ∧ t.rootNode.hasError = true ∧ t.rootNode.isNamed = true :=
    ⟨_, ⟨1, ⟨1, ⟨0, 1⟩⟩, [.document], rfl⟩, rfl, rfl, rfl⟩
  have hgrown : t₂.Grown C.grammar := by
    refine .built (· = t₁) (fun old hold => ?_) (fun g field hg => ?_) h₂
    · rw [hold]
      exact .built (fun _ => False) nofun (fun g field hg => absurd hg (hword g field)) h₁
    · obtain rfl := hreuse g field hg
      exact ⟨t₁, rfl, [], t₁.rootNode, rfl, rfl⟩
  have hroot : t₂.rootNode.descend? [] = some t₂.rootNode := rfl
  obtain ⟨hhasError, -, hcount, -, hunmarked⟩ := hgrown.summaries_exact hroot
  have hfew : t₂.rootNode.namedChildren.length < 2 ^ 32 := by
    have hle : t₂.rootNode.namedChildren.length ≤ t₂.rootNode.children.length := List.length_filter_le ..
    rw [Node.length_children, hchildren] at hle
    omega
  refine ⟨t₂, _, hgrown, rfl, hchildren, hcount hfew, hnamed, hunmarked calls h₂ fun g field hg => ?_,
    hhasError.1 herror⟩
  obtain rfl := hreuse g field hg
  exact (Builder.holds_of_builds h₁ Builder.passes_unmarked fun g field hg => absurd hg (hword g field)).1

end Reparse
