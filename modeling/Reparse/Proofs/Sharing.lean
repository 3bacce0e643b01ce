import Reparse.Proofs.Unchanged

/-!
# Sharing

A parse of an unchanged document takes over all that it may. In the calls of what it reads, no node is
begun where the old tree has one of the same rule that may be taken over, and each subtree that is taken
over stands in the old tree where the builder stands (`Call.Spares`, `State.Shares.leads`). So wherever
the old tree has a statement or a function definition without errors, the new one has the same
(`parse_shares`), and so it is of parsers that note events (`parseBy_shares`).
-/

namespace Reparse

namespace Green

/-- Trees are placed where they are without stamps and marks. -/
lemma placed_bareAll (x : Nat) (cs : List (Child Green)) :
    placed x (bareAll cs) = (placed x cs).map fun p => (p.1, ⟨p.2.field, p.2.node.bare⟩) := by
  induction cs generalizing x with
  | nil => rfl
  | cons c cs ih => rw [bareAll, placed, placed, List.map_cons, ih, width_bare]

/-- The same paths lead down a tree and its bare tree. -/
lemma locate?_bare (g : Green) (path : List Nat) :
    g.bare.locate? path = (g.locate? path).map fun q => (q.1, q.2.bare) := by
  induction path generalizing g with
  | nil => rfl
  | cons i path ih =>
    rw [locate?, locate?, children_bare, placed_bareAll, List.getElem?_map]
    cases (placed 0 g.children)[i]? with
    | none => rfl
    | some p =>
      rw [Option.map_some, Option.bind_some, Option.bind_some, ih, Option.map_map, Option.map_map]
      rfl

/-- So two trees that are the same when they are bare have such nodes at the same paths. -/
lemma exists_locate?_of_bare {g h k : Green} {path : List Nat} {x : Nat} (hbare : g.bare = h.bare)
    (hk : h.locate? path = some (x, k)) : ∃ k', g.locate? path = some (x, k') ∧ k'.bare = k.bare := by
  have hlocate := locate?_bare g path
  rw [hbare, locate?_bare, hk] at hlocate
  obtain ⟨⟨y, k'⟩, hk', heq⟩ := Option.map_eq_some_iff.1 hlocate.symm
  obtain ⟨rfl, hbare'⟩ := Prod.mk.inj heq
  exact ⟨k', hk', hbare'⟩

end Green

namespace C

open Item Green

/-! ## Calls that spare what a tree has -/

namespace Item

mutual

/-- Among the calls of items that hold no node that may be taken over, none begins such a node. -/
lemma not_mem_calls {rule : Rule} {field : Option Field} (hr : rule ∈ reusableAtTop) :
    ∀ {i : Item}, i.Each (fun _ => False) → Call.startNode rule field ∉ i.calls
  | .token _ _, _, hmem => by cases List.mem_singleton.1 hmem
  | .missing _ _, _, hmem => by cases List.mem_singleton.1 hmem
  | .reused _, h, _ => h.elim
  | .node _ rule' parts, ⟨_, hnot, hparts⟩, hmem => by
    cases hmem with
    | head => exact hnot hr
    | tail _ hmem =>
      rcases List.mem_append.1 hmem with hmem | hmem
      · exact not_mem_callsOf hr hparts hmem
      · cases List.mem_singleton.1 hmem

/-- Items in which no node may be taken over start none of those that may. -/
lemma not_mem_callsOf {rule : Rule} {field : Option Field} (hr : rule ∈ reusableAtTop) :
    ∀ {is : List Item}, InnerAll is → Call.startNode rule field ∉ callsOf is
  | [], _, hmem => by cases hmem
  | _ :: _, ⟨hi, hrest⟩, hmem => by
    rcases List.mem_append.1 hmem with hmem | hmem
    · exact not_mem_calls hr hi hmem
    · exact not_mem_callsOf hr hrest hmem

end

end Item

namespace Call

/-- Whether calls take a builder from one byte to another, and spare what a tree has there: none of them
begins a node where the tree has one of the same rule that may be taken over, and each subtree that is
taken over stands there in the tree. -/
def Spares (t : Tree) : Nat → List Call → Nat → Prop
  | x, [], y => x = y
  | x, .startNode rule field :: rest, y =>
    (field = none → rule ∈ reusableAtTop → ∀ n ∈ t.candidatesAt x, n.symbol ≠ rule.symbol) ∧
      Spares t x rest y
  | _, .leaf _ u _ :: rest, y => Spares t u.stop rest y
  | x, .missing .. :: rest, y => Spares t x rest y
  | x, .reuse g :: rest, y => (∃ path, t.root.locate? path = some (x, g)) ∧ Spares t (x + g.width) rest y
  | x, .finishNode :: rest, y => Spares t x rest y

variable {t : Tree} {x y z : Nat} {a b calls : List Call}

/-- Calls spare a tree in two parts. -/
lemma spares_append : Spares t x (a ++ b) z ↔ ∃ y, Spares t x a y ∧ Spares t y b z := by
  induction a generalizing x with
  | nil => exact ⟨fun h => ⟨x, rfl, h⟩, fun ⟨_, hx, h⟩ => hx ▸ h⟩
  | cons c a ih => cases c <;> simp only [List.cons_append, Spares, ih, ← exists_and_left, and_assoc]

/-- Calls that begin no node that may be taken over, and take nothing over, spare what a tree has. -/
lemma LandsPlain.spares (h : LandsPlain x calls y)
    (hc : ∀ rule ∈ reusableAtTop, startNode rule none ∉ calls) : Spares t x calls y := by
  induction calls generalizing x with
  | nil => exact h
  | cons c calls ih =>
    have hc' : ∀ rule ∈ reusableAtTop, startNode rule none ∉ calls := fun rule hr hmem =>
      hc rule hr (List.mem_cons_of_mem _ hmem)
    cases c with
    | startNode rule field =>
      refine ⟨?_, @ih x h hc'⟩
      rintro rfl hr
      exact absurd (List.mem_cons_self ..) (hc rule hr)
    | leaf _ _ _ => exact ih h.2.2.2 hc'
    | missing _ _ => exact @ih x h hc'
    | reuse _ => exact h.1.elim
    | finishNode => exact @ih x h hc'

/-- The same where the first of the calls begins a node and the tree has none of its rule there. -/
lemma LandsPlain.spares_cons {rule : Rule} {field : Option Field}
    (h : LandsPlain x (startNode rule field :: calls) y)
    (hnone : field = none → rule ∈ reusableAtTop → ∀ n ∈ t.candidatesAt x, n.symbol ≠ rule.symbol)
    (hc : ∀ rule ∈ reusableAtTop, startNode rule none ∉ calls) :
    Spares t x (startNode rule field :: calls) y :=
  ⟨hnone, LandsPlain.spares h hc⟩

end Call

/-- A piece that is read spares what a tree has if the tree has no node of the rule that is begun first,
which is no function definition inside a block. -/
lemma Call.LandsPlain.spares_piece {tree : Tree} {x y : Nat} {draft : Draft} {t : Token}
    {ts rest : List Token} {p : Piece} (h : Call.LandsPlain x p.calls y) (ht : t.isComment = false)
    (hr : (if draft.blocks.isEmpty then topLevel t ts else statement t ts) = (p, rest))
    (hnone : ∀ rule ∈ if draft.blocks.isEmpty then reusableAtTop else reusableInBlock,
      ∀ n ∈ tree.candidatesAt x, n.symbol ≠ rule.symbol) : Call.Spares tree x p.calls y := by
  obtain ⟨hinner, -⟩ := Piece.Inner.of_read hr
  have hblock : ∀ rule ∈ reusableAtTop, rule ≠ .functionDefinition →
      rule ∈ if draft.blocks.isEmpty then reusableAtTop else reusableInBlock := by
    intro rule hr hne
    split
    · exact hr
    · exact (List.mem_cons.1 hr).resolve_left hne
  cases p with
  | whole i =>
    cases i with
    | token f u => exact h.spares fun rule hr hmem => by cases List.mem_singleton.1 hmem
    | missing f kind => exact h.spares fun rule hr hmem => by cases List.mem_singleton.1 hmem
    | reused g => exact hinner.1.elim
    | node f rule parts =>
      refine h.spares_cons (fun _ hrule => hnone rule (hblock rule hrule (rule_of_read hr).2)) ?_
      intro rule' hr' hmem
      rcases List.mem_append.1 hmem with hmem | hmem
      · exact not_mem_callsOf hr' hinner.2 hmem
      · cases List.mem_singleton.1 hmem
  | opened definition brace =>
    cases definition with
    | none =>
      refine h.spares_cons (fun _ hrule => hnone _ (hblock _ hrule Rule.noConfusion)) ?_
      intro rule' hr' hmem
      cases List.mem_singleton.1 hmem
    | some head =>
      -- only at the top of a document is a function definition begun
      have hcategory : draft.category = .topLevel := (Piece.sound_of_read ht hr).2.1 rfl
      have htop : draft.blocks.isEmpty = true := by
        unfold Draft.category at hcategory
        split at hcategory
        · assumption
        · cases hcategory
      refine h.spares_cons (fun _ hrule => hnone _ (by rw [if_pos htop]; exact hrule)) ?_
      intro rule' hr' hmem
      rcases List.mem_append.1 hmem with hmem | hmem
      · rcases List.mem_append.1 hmem with hmem | hmem
        · exact not_mem_callsOf hr' hinner hmem
        · cases List.mem_singleton.1 hmem
      · cases List.mem_singleton.1 hmem

section

variable {strict : Prop} {d : Document} {ranges : List Span} {t : Tree}

/-! ## Items and what they become -/

mutual

/-- The calls of an item take a builder to where the tokens end that it stands for. -/
lemma Grows.stop_eq : ∀ {x y : Nat} {i i' : Item}, Grows strict d ranges x i i' →
    Call.Spares t x i.calls y → y = endOf x i'.tokens
  | _, _, _, _, .token, h => h.symm
  | _, _, _, _, .missing, h => h.symm
  | _, _, _, _, .reused hi _ _, h => h.2.symm.trans hi.stop.symm
  | _, _, _, _, .node _ _ hparts, h => by
    obtain ⟨y, hy, hz⟩ := Call.spares_append.1 h.2
    obtain rfl := hparts.stop_eq hy
    exact hz.symm

/-- Calls that spare a tree end where the items that they grow into do. -/
lemma GrowsAll.stop_eq : ∀ {x y : Nat} {is is' : List Item}, GrowsAll strict d ranges x is is' →
    Call.Spares t x (callsOf is) y → y = endOf x (tokensOf is')
  | _, _, _, _, .nil, h => h.symm
  | _, _, _, _, .cons hi hrest, h => by
    obtain ⟨y, hy, hz⟩ := Call.spares_append.1 h
    obtain rfl := hi.stop_eq hy
    rw [tokensOf, endOf_append]
    exact hrest.stop_eq hz

end

/-- Where items become others, each of them does, as do those before it. -/
lemma GrowsAll.split {x : Nat} {before after is' : List Item} {i : Item}
    (h : GrowsAll strict d ranges x (before ++ i :: after) is') :
    ∃ before' i' after', is' = before' ++ i' :: after' ∧ before'.length = before.length ∧
      GrowsAll strict d ranges x before before' ∧
      Grows strict d ranges (endOf x (tokensOf before')) i i' := by
  induction before generalizing x is' with
  | nil =>
    cases h with
    | cons hi _ => exact ⟨[], _, _, rfl, rfl, .nil, hi⟩
  | cons j before ih =>
    cases h with
    | cons hj hrest =>
      obtain ⟨before', i', after', rfl, hlength, hbefore, hi⟩ := ih hrest
      rw [← endOf_append] at hi
      exact ⟨_ :: before', i', after', rfl, congrArg (· + 1) hlength, .cons hj hbefore, hi⟩

/-- What stands at a path of some items becomes what stands there in what they become, and its calls come
where a builder stands at the end of the tokens before that. -/
theorem GrowsAll.exists_at {x y : Nat} {is is' : List Item} {path : List Nat} {ts : List Token}
    {i : Item} (h : GrowsAll strict d ranges x is is') (hc : Call.Spares t x (callsOf is) y)
    (hi : At is path ts i) :
    ∃ ts' i' z, At is' path ts' i' ∧ Grows strict d ranges (endOf x ts') i i' ∧
      Call.Spares t (endOf x ts') i.calls z := by
  induction hi generalizing x y is' with
  | here =>
    obtain ⟨before', i', after', rfl, hlength, hbefore, hi⟩ := h.split
    rw [callsOf_append] at hc
    obtain ⟨y, hy, hz⟩ := Call.spares_append.1 hc
    obtain rfl := hbefore.stop_eq hy
    obtain ⟨z, hz, -⟩ := Call.spares_append.1 hz
    rw [← hlength]
    exact ⟨_, i', z, .here, hi, hz⟩
  | inside _ ih =>
    obtain ⟨before', i', after', rfl, hlength, hbefore, hi⟩ := h.split
    rw [callsOf_append] at hc
    obtain ⟨y, hy, hz⟩ := Call.spares_append.1 hc
    obtain rfl := hbefore.stop_eq hy
    obtain ⟨z, hz, -⟩ := Call.spares_append.1 hz
    cases hi with
    | node _ _ hparts =>
      obtain ⟨w, hw, -⟩ := Call.spares_append.1 hz.2
      obtain ⟨ts', i', z, hat, hgrows, hspares⟩ := ih hparts hw
      rw [← endOf_append] at hgrows hspares
      rw [← hlength]
      exact ⟨_, i', z, .inside hat, hgrows, hspares⟩

end

/-! ## States -/

section

variable {d : Document} {ranges : List Span} {s s' e e₀ : State} {items : List Item} {t : Tree}

/-- Whether a call with an old tree, which becomes a call without one when what was taken over is
replaced, has spared what the old tree has. -/
structure State.Shares (d : Document) (ranges : List Span) (t : Tree) (s e : State) : Prop where
  grows : s.Grows False d ranges e
  good : e.Good True (.ofDocument d ranges)
  calls : Call.Spares t 0 s.draft.calls s.draft.lastStop

namespace State.Shares

/-- A parse starts with all that may be shared still to come. -/
lemma start : (State.start (.ofDocument d ranges) none).Shares d ranges t
    (State.start (.ofDocument d ranges) none) where
  grows := ⟨.empty, rfl⟩
  good := .start True (Source.ordered_chars d ranges)
  calls := ⟨fun _ hr => absurd hr (by decide), rfl⟩

/-- A state that shares a tree stands after its tokens. -/
lemma lastStop_here (h : s.Shares d ranges t e) : s.here.lastStop = endOf 0 e.here.tokens :=
  h.grows.here.lastStop.trans h.good.lastStop_here

/-- The tokens of a state that shares a tree are in order. -/
lemma inOrder (h : s.Shares d ranges t e) :
    InOrder s.draft.lastStop s.tokens (Source.ofDocument d ranges).endOfInput := by
  rw [h.grows.draft.lastStop, h.good.lastStop, h.grows.tokens]
  exact (inOrder_append.1 h.good.inOrder).2

/-- Where nothing is taken over of the tree of the document, that has no node of a rule that might be. -/
lemma symbol_ne_of_declined (hd : d.bytes.length ≤ limit) (hfits : t.root.Fits d.bytes)
    (hb : Builds True (.ofDocument d ranges) e₀ items t) (h : s.Shares d ranges t e) {u : Token}
    {rest : List Token} (hp : s.pending = u :: rest)
    (hnone : State.reusable? (.ofDocument d ranges) (some t) s.here u = none) :
    ∀ rule ∈ if s.draft.blocks.isEmpty then reusableAtTop else reusableInBlock,
      ∀ n ∈ t.candidatesAt s.here.lastStop, n.symbol ≠ rule.symbol := by
  intro rule hrule n hn hs
  have hn' := hn
  rw [h.lastStop_here] at hn'
  obtain ⟨parts, u', rest', -, htokens, hpending, hstart, hstop⟩ :=
    hb.exists_read hd hfits h.good hn' (mem_reusableAtTop hrule) hs
  -- the node begins with the token that comes next
  rw [← h.grows.pending, hp, htokens] at hpending
  obtain rfl := (List.cons.inj hpending).1
  refine List.find?_eq_none.1 hnone n hn ?_
  simp only [Bool.and_eq_true, beq_iff_eq, decide_eq_true_eq, List.any_eq_true]
  exact ⟨⟨hstart, hstop⟩, rule, hrule, hs.symm⟩

/-- The comments that come next are spared, too. -/
lemma calls_here (hd : d.bytes.length ≤ limit) (h : s.Shares d ranges t e) :
    Call.Spares t 0 s.here.calls s.here.lastStop := by
  have hlimit := Source.endOfInput_le_limit hd ranges
  rw [s.calls_here]
  exact Call.spares_append.2 ⟨_, h.calls, (s.lands_comments hlimit h.inOrder).1.spares
    fun rule hr => not_mem_callsOf hr (inner_comments s.tokens)⟩

/-- A step spares what the old tree has. -/
lemma calls_leads (hd : d.bytes.length ≤ limit) (hfits : t.root.Fits d.bytes)
    (hb : Builds True (.ofDocument d ranges) e₀ items t) (h : s.Shares d ranges t e)
    (hl : Leads (.ofDocument d ranges) (some t) s s') :
    Call.Spares t 0 s'.draft.calls s'.draft.lastStop := by
  have hlimit := Source.endOfInput_le_limit hd ranges
  have hold : ∀ t' ∈ some t, t'.root.Fits d.bytes := by
    rintro _ ⟨⟩
    exact hfits
  have hhere := h.calls_here hd
  rcases hl.calls_here hlimit h.inOrder with
    ⟨more, hmore, hplain, -, ⟨b, rfl⟩ | ⟨u, rest, piece, rest', hp, hnone, hr, rfl⟩⟩ |
    ⟨n, ⟨u, rest, -, -, hr⟩, hmore, hlast, -⟩
  · rw [hmore]
    refine Call.spares_append.2 ⟨_, hhere, hplain.spares fun rule hr hmem => ?_⟩
    rcases List.mem_append.1 hmem with hmem | hmem
    · exact not_mem_callsOf hr (inner_expect .rightBrace none s.pending) hmem
    · unfold Block.closing at hmem
      split at hmem <;> simp at hmem
  · rw [hmore]
    exact Call.spares_append.2 ⟨_, hhere, hplain.spares_piece (State.isComment_of_pending hp) hr
      (h.symbol_ne_of_declined hd hfits hb hp hnone)⟩
  · obtain ⟨⟨-, t', ht, path, hpath⟩, hstop, -⟩ := offers_of_reusable hd hold hr
    obtain rfl := Option.some.inj ht
    rw [hmore, hlast, hstop]
    exact Call.spares_append.2 ⟨_, hhere, ⟨path, hpath⟩, rfl⟩

/-- A step of a call with the tree of the document becomes one of a call without an old tree, and spares
what the tree has. -/
theorem leads (hknown : Known False d ranges t) (hb : Builds True (.ofDocument d ranges) e₀ items t)
    (h : s.Shares d ranges t e) (hl : Leads (.ofDocument d ranges) (some t) s s') :
    ∃ e', s'.Shares d ranges t e' := by
  have hd := hknown.length_le
  have hcalls := h.calls_leads hd hknown.fits hb hl
  have hloose := h.good.loosen
  rcases h.grows.moves False.elim hloose hl with
    ⟨e', hg, hl'⟩ | ⟨u, rest, n, hp, hlast, hcategory, hr, hgrows⟩
  · exact ⟨e', hg, h.good.leads hl', hcalls⟩
  · obtain ⟨hparted, -⟩ := hloose.covers_pending
    have hold : ∀ t' ∈ some t, Known False d ranges t' := by
      rintro _ ⟨⟩
      exact hknown
    obtain ⟨-, hstop, hholds, hclear, -⟩ :=
      exists_standsFor hold (by rw [hlast]; exact hparted) hr
    obtain ⟨t', ht, hn, -, -, rule, hrule, hsymbol⟩ := exists_of_reusable hr
    obtain rfl := Option.some.inj ht
    rw [hlast] at hstop hholds hclear hn
    obtain ⟨parts, -, -, hstands, -, hpending, -⟩ :=
      hb.exists_read hd hknown.fits h.good hn (mem_reusableAtTop hrule) hsymbol.symm
    have hi := hstands.is.category hrule
    rw [hcategory] at hi
    -- the call without an old tree reads what the node stands for
    have hgood := hloose.graft False.elim hp hi hstands
    have hsteps := steps_of_pending h.good hi hpending hstands.stop
    exact ⟨_, hgrows _ hstands hstop hholds hclear,
      ⟨hgood.sound, hgood.covers, hgood.lastStop, fun _ => (h.good.fresh trivial).trans hsteps,
        hgood.volume, hgood.ahead⟩, hcalls⟩

/-- The steps of such a call do so. -/
theorem steps (hknown : Known False d ranges t) (hb : Builds True (.ofDocument d ranges) e₀ items t)
    (h : s.Shares d ranges t e) (hs : Steps (.ofDocument d ranges) (some t) s s') :
    ∃ e', s'.Shares d ranges t e' := by
  induction hs with
  | refl => exact ⟨e, h⟩
  | tail _ hl ih =>
    obtain ⟨e', h'⟩ := ih
    exact h'.leads hknown hb hl

end State.Shares

end

/-! ## Trees -/

section

variable {p p' q q' : Parser Checkpoint} {d : Document} {ranges : List Span} {e : State}
  {items raw : List Item} {t t' : Tree} {outside outside' : Outside} {generation generation' : Nat}

/-- A call without progress and without an old tree builds the tree of what it reads. -/
lemma exists_builds_of_fresh (hl : p.language = some language)
    (hnone : p.suspended.filter (p.continues language d) = none)
    (hp : p.parse outside generation d none = (.ok t, q)) :
    t.grammar = grammar ∧ ∃ e items, Builds True (.ofDocument d p.includedRanges) e items t := by
  obtain ⟨e, items, hsteps, hf, htree⟩ := exists_finished_of_parse hl hp
  rw [startOf, hnone] at hsteps
  have hgood := (State.Good.start True (Source.ordered_chars d p.includedRanges)).steps hsteps
  obtain ⟨-, -, rfl⟩ := of_finished hf
  obtain ⟨hgrammar, -, hroot⟩ := of_treeOf htree
  refine ⟨hgrammar, e, _, hgood, hf, (eachAll_reverse.2 hgood.each.here.parts).whole, ?_, hroot⟩
  rw [tokens_finished hf]
  exact hgood.covers

/-- A call without progress and with the tree of the document builds that tree again, of items that hold
subtrees of it, and spares what it has. -/
lemma exists_spares_of_parse (hl : p.language = some language)
    (hnone : p.suspended.filter (p.continues language d) = none)
    (hadmits : p.admits language t = true) (hknown : Known False d p.includedRanges t)
    (hb : Builds True (.ofDocument d p.includedRanges) e items t)
    (hp : p.parse outside generation d (some t) = (.ok t', q)) :
    Builds True (.ofDocument d p.includedRanges) e items t' ∧
      ∃ raw y, treeOf (.ofDocument d p.includedRanges) generation raw = .ok t' ∧
        GrowsAll False d p.includedRanges 0 raw items ∧ Call.Spares t 0 (callsOf raw) y := by
  obtain ⟨s, raw, hsteps, hf, htree⟩ := exists_finished_of_parse hl hp
  rw [startOf, hnone, Option.filter_some, if_pos hadmits] at hsteps
  obtain ⟨e', h⟩ := State.Shares.start.steps hknown hb hsteps
  obtain ⟨items', hf', hgrows, ⟨blanks, hc, -⟩, -⟩ := h.grows.finished h.good.loosen hf
  -- the call without an old tree that it becomes is the one that built the tree
  obtain rfl := finished_unique (h.good.fresh trivial) (hb.good.fresh trivial) hf' hb.finished
  obtain rfl := Step.finished.inj (hf'.symm.trans hb.finished)
  obtain ⟨-, -, hroot⟩ := of_treeOf htree
  have hroot' := root_of_grows hknown.length_le hgrows hc hroot
  obtain ⟨-, hblocks, rfl⟩ := of_finished hf
  refine ⟨⟨hb.good, hb.finished, hb.whole, hb.covers, hroot'⟩, _, s.here.lastStop, htree, hgrows, ?_⟩
  have hcalls := h.calls_here hknown.length_le
  rw [Draft.calls, State.blocks_here, hblocks] at hcalls
  exact hcalls.2

/-- What stands in a subtree that was taken over stands in the old tree at the same byte. -/
lemma exists_locate?_of_reused (hd : d.bytes.length ≤ limit)
    (hb : Builds True (.ofDocument d ranges) e items t')
    (hgrows : GrowsAll False d ranges 0 raw items) {y : Nat} (hspares : Call.Spares t 0 (callsOf raw) y)
    {above below : List Nat} {ts : List Token} {g k : Green} {x : Nat} (hi : At raw above ts (.reused g))
    (habove : t'.root.Has above g) (hbelow : g.Has below k)
    (hk : t'.root.locate? (above ++ below) = some (x, k)) :
    ∃ path, t.root.locate? path = some (x, k) := by
  obtain ⟨ts', i', z, hi', -, ⟨path, hold⟩, -⟩ := hgrows.exists_at hspares hi
  obtain ⟨u, hnew⟩ := Green.has_iff.1 habove
  obtain ⟨v, hv⟩ := Green.has_iff.1 hbelow
  -- it begins at the same byte in both trees
  obtain ⟨ts'', i'', hi'', rfl, -⟩ := hb.locate hd hnew hi.ne_nil
  obtain ⟨rfl, rfl⟩ := hi'.unique hi''
  rw [Green.locate?_append hnew, hv] at hk
  refine ⟨path ++ below, ?_⟩
  rw [Green.locate?_append hold, hv]
  exact hk

/-- Where a tree of a document has a node that may be taken over, and a tree is built of items that hold
subtrees of it and spare what it has, that tree has the same node. -/
theorem eq_of_spares (hd : d.bytes.length ≤ limit) (hfits : t.root.Fits d.bytes)
    (hunmarked : t.root.Unmarked) (hb : Builds True (.ofDocument d ranges) e items t)
    (hb' : Builds True (.ofDocument d ranges) e items t')
    (htree : treeOf (.ofDocument d ranges) generation raw = .ok t')
    (hgrows : GrowsAll False d ranges 0 raw items) {y : Nat} (hspares : Call.Spares t 0 (callsOf raw) y)
    {path : List Nat} {i : Nat} {m n : Node} {rule : Rule} (hm : t.rootNode.descend? path = some m)
    (hn : m.child? i = some n) (hr : rule ∈ reusableAtTop) (hs : n.symbol = rule.symbol)
    (herror : n.hasError = false) (habove : path ≠ [] → m.symbol = Rule.compoundStatement.symbol) :
    t'.root.locate? (path ++ [i]) = some (n.totalStart, n.green) := by
  have hpath : t.rootNode.descend? (path ++ [i]) = some n := by
    rw [Node.descend?_concat, hm, Option.bind_some, hn]
  have hne : path ++ [i] ≠ [] := List.append_ne_nil_of_right_ne_nil _ (List.cons_ne_nil _ _)
  have hl := Tree.locate_of_descend? hd hfits hpath
  obtain ⟨hmem, hwidth, ts, parts, hat, hstart⟩ :=
    hb.mem_candidatesAt hd hfits hunmarked hm hn hr hs herror habove
  -- the new tree has a node there of which the same was built
  obtain ⟨k, hk, hbare⟩ := Green.exists_locate?_of_bare (hb'.root.trans hb.root.symm) hl
  suffices h : k = n.green by
    rw [hk, h]
  obtain ⟨-, _, hmakes⟩ := makesAll_of_treeOf htree
  obtain ⟨⟨l, cs⟩, grammar', ranges'⟩ := t'
  rcases hmakes.origin (Green.has_iff.2 ⟨_, hk⟩) hne with
    ⟨ts', j, _, _, hj, hnot, -, -⟩ | ⟨above, below, ts', g, hsplit, hj, habove', hbelow⟩
  · -- a node that was begun here would have been spared
    obtain ⟨ts', j', z, hj', hgrown, hcalls⟩ := hgrows.exists_at hspares hj
    obtain ⟨rfl, rfl⟩ := hj'.unique hat
    cases hgrown with
    | reused _ _ _ => exact absurd rfl (hnot _)
    | node _ _ _ =>
      rw [hstart] at hmem
      exact absurd hs (hcalls.1 rfl hr n hmem)
  · -- the old tree has it there, too, but only one node as deep as this
    rw [hsplit] at hk
    obtain ⟨path', hold⟩ := exists_locate?_of_reused hd hb' hgrows hspares hj habove' hbelow hk
    have hdepth : k.depth = n.green.depth := by rw [← Green.depth_bare, hbare, Green.depth_bare]
    have hkwidth : 0 < k.width := by
      rw [← Green.width_bare, hbare, Green.width_bare]
      exact hwidth
    obtain rfl := hfits.path_unique hold hl hdepth hkwidth hwidth
    exact (Prod.mk.inj (Option.some.inj (hold.symm.trans hl))).2

/-- Whether a node at a path of a tree and its child may be taken over there by a parse: the child has no
errors, and it is a statement at the top of the document or in a block, or a function definition at the
top. -/
def MayShare (path : List Nat) (m n : Node) : Prop :=
  n.hasError = false ∧
    ((path = [] ∨ m.symbol = Rule.compoundStatement.symbol) ∧
        (∃ rule ∈ [Rule.declaration, .expressionStatement, .returnStatement, .compoundStatement],
          n.symbol = rule.symbol) ∨
      path = [] ∧ n.symbol = Rule.functionDefinition.symbol)

/-- A node that may be shared is of a rule that may be taken over, and below the top it stands in a block.
-/
lemma MayShare.rule {path : List Nat} {m n : Node} (h : MayShare path m n) :
    ∃ rule ∈ reusableAtTop, n.symbol = rule.symbol ∧
      (path ≠ [] → m.symbol = Rule.compoundStatement.symbol) := by
  obtain ⟨-, ⟨habove, rule, hr, hs⟩ | ⟨hnil, hs⟩⟩ := h
  · exact ⟨rule, List.mem_cons_of_mem _ hr, hs, fun hne => habove.resolve_left hne⟩
  · exact ⟨_, List.mem_cons_self .., hs, fun hne => absurd hnil hne⟩

/-- A parse of an unchanged document shares all that it may: each node of the tree of the first call that
may be taken over is in the tree of the second one, with the same storage and at the same place. -/
lemma parse_shares (generation generation' : Nat) (hused : Used False p) (hused' : Used False p')
    (hd : d.bytes.length ≤ limit) (hranges : p'.includedRanges = p.includedRanges)
    (hsome : p.includedRanges ≠ []) (hfresh : p.suspended.filter (p.continues language d) = none)
    (hfresh' : p'.suspended.filter (p'.continues language d) = none)
    (hn : NeverFires (p.probes outside) (.start p.timeout))
    (hn' : NeverFires (p'.probes outside') (.start p'.timeout)) :
    ∃ t₀ t₁, (p.parse outside generation d none).1 = .ok t₀ ∧
      (p'.parse outside' generation' d (some t₀)).1 = .ok t₁ ∧ t₁.Agrees t₀ ∧
      ∀ path i m n, t₀.rootNode.descend? path = some m → m.child? i = some n → MayShare path m n →
        ∃ n', t₁.rootNode.descend? (path ++ [i]) = some n' ∧ n'.sameStorage n = true ∧
          n'.green = n.green ∧ n'.start = n.start ∧ n'.stop = n.stop := by
  have hnone : ∀ u ∈ (none : Option Tree), Matches False d u := by
    rintro _ ⟨⟩
  obtain ⟨t₀, h₀⟩ := (hused.parse_cases hnone False.elim outside generation).resolve_right
    fun ⟨h, _⟩ => h hn
  obtain ⟨-, hincluded, hunmarked, hknown⟩ := hused.pursues.2.builds hused.pursues.1 hd False.elim
    (known_filter fun t ht => (hnone t ht).known) h₀
  have hold : ∀ u ∈ some t₀, Matches False d u := by
    rintro _ ⟨⟩
    exact .parsed hused hnone hd False.elim h₀
  obtain ⟨t₁, h₁⟩ := (hused'.parse_cases hold False.elim outside' generation').resolve_right
    fun ⟨h, _⟩ => h hn'
  obtain ⟨hgrammar, e, items, hb₀⟩ := exists_builds_of_fresh hused.pursues.1 hfresh h₀
  have hadmits : p'.admits language t₀ = true := by
    rw [Parser.admits, hgrammar, hincluded, Source.effectiveRanges, hranges,
      if_neg (by rw [List.isEmpty_iff]; exact hsome)]
    simp [language]
  rw [← hranges] at hb₀ hknown
  obtain ⟨hb₁, raw, y, htree, hgrows, hspares⟩ :=
    exists_spares_of_parse hused'.pursues.1 hfresh' hadmits hknown hb₀ h₁
  refine ⟨t₀, t₁, by rw [h₀], by rw [h₁], hb₁.agrees hb₀, fun path i m n hm hn hshare => ?_⟩
  obtain ⟨rule, hr, hs, habove⟩ := hshare.rule
  have hl := eq_of_spares hd hknown.fits hunmarked hb₀ hb₁ htree hgrows hspares hm hn hr hs hshare.1 habove
  -- the same subtree at the same byte starts and ends at the same place
  have hlined := d.length_lined.trans_le hd
  have hspans₀ := hb₀.spans_lined hd
  have hspans₁ := hb₁.spans_lined hd
  have hpath : t₀.rootNode.descend? (path ++ [i]) = some n := by
    rw [Node.descend?_concat, hm, Option.bind_some, hn]
  obtain ⟨n', hn', hgreen, hbyte⟩ := Tree.exists_descend?_of_locate hlined hspans₁.fits hl
  obtain ⟨hstart, hstop⟩ :=
    hspans₁.eq_of_totalStart hspans₀ hlined d.encoding_lined hn' hpath hgreen hbyte
  refine ⟨n', hn', ?_, hgreen, hstart, hstop⟩
  rw [Node.sameStorage, hgreen]
  exact beq_self_eq_true _

end

/-! ## Parsers that note events -/

section

variable {κ : Type} [DecidableEq κ] {fingerprint : Document → List Span → κ} {p p' : Parser Suspension}
  {d : Document} {outside outside' : Outside}

/-- A parse of an unchanged document shares all that it may. If a document is parsed without an old tree,
and parsed again with the tree of that as the old one, for the same ranges, neither call going on from an
earlier one or being told to stop, and both relying on the numbers of their events, then both give a tree,
these agree, and each node of the old tree that may be taken over is in the new one, with the same storage
and at the same place. -/
theorem parseBy_shares (generation generation' : Nat) (hused : UsedBy fingerprint p)
    (hused' : UsedBy fingerprint p') (hd : d.bytes.length ≤ limit)
    (hranges : p'.includedRanges = p.includedRanges) (hsome : p.includedRanges ≠ [])
    (hfresh : p.suspended.filter (p.continuesBy fingerprint notedLanguage d) = none)
    (hfresh' : p'.suspended.filter (p'.continuesBy fingerprint notedLanguage d) = none)
    (hn : NeverFires (p.probes outside) (.start p.timeout))
    (hn' : NeverFires (p'.probes outside') (.start p'.timeout))
    (hrelies : Relies fingerprint p outside generation d none)
    (hrelies' : ∀ t₀, (p.parseBy fingerprint outside generation d none).1 = .ok t₀ →
      Relies fingerprint p' outside' generation' d (some t₀)) :
    ∃ t₀ t₁, (p.parseBy fingerprint outside generation d none).1 = .ok t₀ ∧
      (p'.parseBy fingerprint outside' generation' d (some t₀)).1 = .ok t₁ ∧ t₁.Agrees t₀ ∧
      ∀ path i m n, t₀.rootNode.descend? path = some m → m.child? i = some n → MayShare path m n →
        ∃ n', t₁.rootNode.descend? (path ++ [i]) = some n' ∧ n'.sameStorage n = true ∧
          n'.green = n.green ∧ n'.start = n.start ∧ n'.stop = n.stop := by
  obtain ⟨r, hr, hdrafted⟩ := hused.exists_used
  obtain ⟨r', hr', hdrafted'⟩ := hused'.exists_used
  obtain ⟨t₀, t₁, h₀, h₁, hagrees, hshares⟩ := @parse_shares r r' d outside outside' generation generation'
    hdrafted hdrafted' hd (by rw [hr.ranges, hr'.ranges, hranges]) (by rw [hr.ranges]; exact hsome)
    (hr.filter_eq_none hfresh) (hr'.filter_eq_none hfresh') (by rw [hr.probes, hr.timeout]; exact hn)
    (by rw [hr'.probes, hr'.timeout]; exact hn')
  -- both calls give what the parsers give whose progress is a draft
  obtain ⟨_, hcall, -⟩ := hr.parse hrelies (Prod.eta _).symm
  have hfirst : (p.parseBy fingerprint outside generation d none).1 = .ok t₀ := by rw [← h₀, hcall]
  obtain ⟨_, hcall', -⟩ := hr'.parse (hrelies' t₀ hfirst) (Prod.eta _).symm
  exact ⟨t₀, t₁, hfirst, by rw [← h₁, hcall'], hagrees, hshares⟩

/-- A block that lacks its brace is parsed again: the block has an error, but the statement in it is taken
over. -/
theorem parseBy_shares_block :
    ∃ t₀ t₁ n n', (plainNotedParser.parseBy Prod.mk stillWorld 0 ⟨[123, 120, 59], .utf8⟩ none).1 = .ok t₀ ∧
      (plainNotedParser.parseBy Prod.mk stillWorld 1 ⟨[123, 120, 59], .utf8⟩ (some t₀)).1 = .ok t₁ ∧
      t₁.Agrees t₀ ∧ t₀.rootNode.hasError = true ∧ t₀.rootNode.descend? [0, 1] = some n ∧
      t₁.rootNode.descend? [0, 1] = some n' ∧ n'.sameStorage n = true := by
  have hused : UsedBy Prod.mk plainNotedParser := .new rfl rfl
  have hquiet : NeverFires (plainNotedParser.probes stillWorld) (.start 0) :=
    neverFires_of_flag fun _ => rfl
  have hcount : ((plainNotedParser.parseBy Prod.mk stillWorld 0 ⟨[123, 120, 59], .utf8⟩ none).1.toOption.all
      fun t₀ => decide (eventCount 1 (plainNotedParser.probes stillWorld)
        (plainNotedParser.taskBy Prod.mk stillWorld notedLanguage ⟨[123, 120, 59], .utf8⟩ (some t₀))
        (.start 0) ≤ limit)) = true := by
    decide +kernel
  obtain ⟨t₀, t₁, h₀, h₁, hagrees, hshares⟩ := @parseBy_shares _ _ Prod.mk plainNotedParser plainNotedParser
    ⟨[123, 120, 59], .utf8⟩ stillWorld stillWorld 0 1 hused hused (by decide) rfl (by decide) rfl rfl
    hquiet hquiet ⟨by decide +kernel, fun _ hc => by cases hc⟩ fun t₀ h₀ =>
      ⟨by rw [h₀] at hcount; exact of_decide_eq_true hcount, fun _ hc => by cases hc⟩
  have hshape : (plainNotedParser.parseBy Prod.mk stillWorld 0 ⟨[123, 120, 59], .utf8⟩
      none).1.toOption.map (fun t₀ => (t₀.rootNode.hasError, (t₀.rootNode.descend? [0]).map fun m =>
        (m.symbol, (m.child? 1).map fun n => (n.symbol, n.hasError)))) =
      some (true, some (Rule.compoundStatement.symbol,
        some (Rule.expressionStatement.symbol, false))) := by
    decide +kernel
  rw [h₀] at hshape
  obtain ⟨herror, hshape⟩ := Prod.mk.inj (Option.some.inj hshape)
  obtain ⟨m, hm, hshape⟩ := Option.map_eq_some_iff.1 hshape
  obtain ⟨hblock, hshape⟩ := Prod.mk.inj hshape
  obtain ⟨n, hn, hshape⟩ := Option.map_eq_some_iff.1 hshape
  obtain ⟨hstatement, hclean⟩ := Prod.mk.inj hshape
  obtain ⟨n', hn', hstorage, -⟩ := hshares [0] 1 m n hm hn
    ⟨hclean, .inl ⟨.inr hblock, _, by decide, hstatement⟩⟩
  refine ⟨t₀, t₁, n, n', h₀, h₁, hagrees, herror, ?_, hn', hstorage⟩
  rw [show [0, 1] = [0] ++ [1] from rfl, Node.descend?_concat, hm, Option.bind_some, hn]

end

end C

end Reparse
