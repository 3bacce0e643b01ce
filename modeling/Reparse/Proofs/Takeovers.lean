import Reparse.Proofs.Differences
import Reparse.Proofs.Iterations
import Reparse.Proofs.Landings
import Reparse.Proofs.Lines

/-!
# Takeovers

Where the nodes go that a parse takes over from an old tree. What was read so far stands for calls of a
builder, to which every step adds some at the end (`Leads.calls`), also in a call that goes on from where
an earlier one was halted. These calls take the builder to the end of what was read
(`Reached.lands`), so that a node is taken over where it stands in the old tree. Every node of the new
tree that shares its storage with the old one so has its place there (`Resumed.parse_lands`).
-/

namespace Reparse

namespace C

open Item

/-! ## What was read as calls -/

/-- The calls with which a block begins, up to its first part. -/
def Block.opening (b : Block) : List Call :=
  match b.definition with
  | none => [.startNode .compoundStatement none]
  | some head =>
    .startNode .functionDefinition none ::
      (callsOf head ++ [Call.startNode .compoundStatement (some .body)])

/-- The calls with which a block ends. -/
def Block.closing (b : Block) : List Call :=
  match b.definition with
  | none => [.finishNode]
  | some _ => [.finishNode, .finishNode]

namespace Draft

/-- The calls up to where the innermost of some open blocks begins with its parts. -/
def callsBefore : List Block → List Call
  | [] => [.startNode .document none]
  | b :: outer => callsBefore outer ++ callsOf b.outer.reverse ++ b.opening

/-- The calls that a draft stands for. -/
def calls (d : Draft) : List Call := callsBefore d.blocks ++ callsOf d.parts.reverse

/-- Added items add their calls. -/
lemma calls_add (d : Draft) (items : List Item) : (d.add items).calls = d.calls ++ callsOf items := by
  show callsBefore d.blocks ++ callsOf (items.reverse ++ d.parts).reverse = _
  rw [List.reverse_append, List.reverse_reverse, callsOf_append, calls, List.append_assoc]

/-- A closed block stands for what it begins with, its parts, and what it ends with. -/
lemma calls_closedBlock (b : Block) (parts : List Item) :
    (closedBlock b parts).calls = b.opening ++ callsOf parts ++ b.closing := by
  obtain ⟨definition, outer⟩ := b
  cases definition with
  | none => rfl
  | some head =>
    show Call.startNode .functionDefinition none :: (callsOf (head ++ [_]) ++ [Call.finishNode]) = _
    rw [callsOf_append]
    simp [callsOf, Item.calls, Block.opening, Block.closing]

/-- Closing a block adds its brace and what it ends with. -/
lemma calls_close {b : Block} {outer : List Block} (d : Draft) (hb : d.blocks = b :: outer)
    (brace : List Item) (lastStop : Nat) :
    (Draft.mk (closedBlock b (d.parts.reverse ++ brace) :: b.outer) outer lastStop).calls =
      d.calls ++ (callsOf brace ++ b.closing) := by
  rw [calls, calls, hb, List.reverse_cons, callsOf_append, callsOf, callsOf, List.append_nil,
    calls_closedBlock, callsOf_append]
  simp only [callsBefore, List.append_assoc]

end Draft

/-- Comments add their calls. -/
lemma State.calls_here (s : State) :
    s.here.calls = s.draft.calls ++ callsOf (comments s.tokens).1 :=
  Draft.calls_add s.draft (comments s.tokens).1

/-- Whether the next step takes over a node of the old tree. -/
def State.TakesOver (source : Source) (oldTree : Option Tree) (s : State) (n : Node) : Prop :=
  ∃ t rest, s.pending = t :: rest ∧ (s.draft.blocks ≠ [] → t.kind ≠ .rightBrace) ∧
    State.reusable? source oldTree s.here t = some n

/-! ## Steps -/

/-- Calls that land however subtrees belong, as none is taken over. -/
abbrev Call.LandsPlain : Nat → List Call → Nat → Prop := Call.Lands fun _ _ => False

/-- Calls land where more subtrees belong. -/
lemma Call.Lands.mono {P Q : Nat → Green → Prop} (hPQ : ∀ x g, P x g → Q x g) {x y : Nat}
    {calls : List Call} (h : Lands P x calls y) : Lands Q x calls y := by
  induction calls generalizing x with
  | nil => exact h
  | cons c calls ih =>
    cases c with
    | leaf _ _ _ => exact ⟨h.1, h.2.1, h.2.2.1, ih h.2.2.2⟩
    | reuse _ => exact ⟨hPQ _ _ h.1, ih h.2⟩
    | startNode _ _ => exact @ih x h
    | missing _ _ => exact @ih x h
    | finishNode => exact @ih x h

/-- Calls that land without subtrees land. -/
lemma Call.LandsPlain.lands {Q : Nat → Green → Prop} {x y : Nat} {calls : List Call}
    (h : LandsPlain x calls y) : Lands Q x calls y :=
  Lands.mono (fun _ _ => False.elim) h

/-- A subtree among calls that land belongs somewhere. -/
lemma Call.Lands.exists_of_mem {Q : Nat → Green → Prop} {x y : Nat} {calls : List Call} {g : Green}
    (h : Lands Q x calls y) (hmem : Call.reuse g ∈ calls) : ∃ z, Q z g := by
  induction calls generalizing x with
  | nil => cases hmem
  | cons c calls ih =>
    cases hmem with
    | head => exact ⟨x, h.1⟩
    | tail _ hmem =>
      cases c with
      | leaf _ _ _ => exact ih h.2.2.2 hmem
      | reuse _ => exact ih h.2 hmem
      | startNode _ _ => exact @ih x h hmem
      | missing _ _ => exact @ih x h hmem
      | finishNode => exact @ih x h hmem

/-- Calls that land without subtrees take none over. -/
lemma Call.LandsPlain.not_mem_reuse {x y : Nat} {calls : List Call} {g : Green}
    (h : LandsPlain x calls y) : Call.reuse g ∉ calls := by
  intro hmem
  obtain ⟨z, hz⟩ := h.exists_of_mem hmem
  exact hz

section

variable {source : Source} {oldTree : Option Tree} {s s' : State}

/-- The comments before the next token are read where the call stands. -/
lemma State.lands_comments (hlimit : source.endOfInput ≤ limit)
    (ht : InOrder s.draft.lastStop s.tokens source.endOfInput) :
    Call.LandsPlain s.draft.lastStop (callsOf (comments s.tokens).1) s.here.lastStop ∧
      InOrder s.here.lastStop s.pending source.endOfInput := by
  rw [← s.comments_append, inOrder_append, ← s.lastStop_here] at ht
  obtain ⟨hcomments, hpending⟩ := ht
  have hle := hpending.le
  refine ⟨?_, hpending⟩
  rw [s.lastStop_here] at hcomments hle ⊢
  exact lands_callsOf (inner_comments s.tokens).whole hcomments (by omega)

/-- The calls of a piece. -/
def Piece.calls : Piece → List Call
  | whole item => item.calls
  | opened definition brace => Block.opening ⟨definition, []⟩ ++ [Call.leaf none brace brace.isComment]

/-- A piece adds its calls. -/
lemma Draft.calls_place (d : Draft) (p : Piece) : (d.place p).calls = d.calls ++ p.calls := by
  cases p with
  | whole item =>
    show (d.add [item]).calls = _
    rw [calls_add, callsOf, callsOf, List.append_nil]
    rfl
  | opened definition brace =>
    show callsBefore d.blocks ++ callsOf d.parts.reverse ++ Block.opening ⟨definition, d.parts⟩ ++ _ = _
    rw [List.append_assoc]
    rfl

/-- To close a block leaves the byte. -/
lemma Block.lands_closing (b : Block) (x : Nat) : Call.LandsPlain x b.closing x := by
  unfold closing
  split <;> rfl

/-- The calls of a piece that is read from tokens in order land. -/
lemma Piece.Inner.lands {p : Piece} {x y : Nat} (h : p.Inner) (ho : InOrder x p.tokens y) (hy : y ≤ limit) :
    Call.LandsPlain x p.calls (endOf x p.tokens) := by
  have heach : p.Each fun _ => True := h.each fun _ _ _ _ _ => trivial
  cases p with
  | whole item => exact lands_calls heach.whole ho hy
  | opened definition brace =>
    have hhead : WholeAll (definition.getD []) := heach.whole
    rw [tokens, inOrder_append] at ho
    obtain ⟨hdefinition, hstart, hlt, hle⟩ := ho
    have hlimit : brace.stop ≤ limit := Nat.le_trans hle hy
    rw [tokens, endOf_append]
    apply Call.lands_append.2
    refine ⟨endOf x (tokensOf (definition.getD [])), ?_, hstart, hlt, hlimit, rfl⟩
    have hcalls := lands_callsOf (Q := fun _ _ => False) hhead hdefinition (by omega)
    cases definition with
    | none => rfl
    | some head => exact Call.lands_append.2 ⟨_, hcalls, rfl⟩

/-- A step goes on after the comments with the calls with which a block ends, or with those of a piece, or
it takes over a node of the old tree. -/
theorem Leads.calls_here (hlimit : source.endOfInput ≤ limit)
    (ht : InOrder s.draft.lastStop s.tokens source.endOfInput) (hl : Leads source oldTree s s') :
    (∃ more, s'.draft.calls = s.here.calls ++ more ∧
      Call.LandsPlain s.here.lastStop more s'.draft.lastStop ∧
      InOrder s'.draft.lastStop s'.tokens source.endOfInput ∧
      ((∃ b : Block, more = callsOf (expect .rightBrace none s.pending).1 ++ b.closing) ∨
        ∃ t rest piece rest', s.pending = t :: rest ∧
          State.reusable? source oldTree s.here t = none ∧
          (if s.draft.blocks.isEmpty then topLevel t rest else statement t rest) = (piece, rest') ∧
          more = piece.calls)) ∨
    ∃ n, s.TakesOver source oldTree n ∧ s'.draft.calls = s.here.calls ++ [Call.reuse n.green] ∧
      s'.draft.lastStop = n.stopByte ∧ s'.tokens = tokensFrom source n.stopByte := by
  obtain ⟨-, hpending⟩ := s.lands_comments hlimit ht
  cases hl.moves with
  | @closes b outer hb _ =>
    have hk : tokensOf (expect .rightBrace none s.pending).1 ++
        (expect .rightBrace none s.pending).2 = s.pending := keeps_expect .rightBrace none s.pending
    rw [← hk, inOrder_append] at hpending
    obtain ⟨hbrace, hrest⟩ := hpending
    have hle := hrest.le
    refine .inl ⟨_, s.here.calls_close (s.blocks_here.trans hb) _ _, ?_, ?_, .inl ⟨b, rfl⟩⟩
    · rw [taken_expect]
      apply Call.lands_append.2
      refine ⟨_, ?_, b.lands_closing _⟩
      exact lands_callsOf (inner_expect .rightBrace none s.pending).whole hbrace (by omega)
    · rw [taken_expect]
      exact hrest
  | @reuses t rest n hp hk hr =>
    exact .inr ⟨n, ⟨t, rest, hp, hk, hr⟩, s.here.calls_add [.reused n.green], rfl, rfl⟩
  | @reads t rest piece rest' hp _ hnone hr =>
    obtain ⟨hinner, hk⟩ := Piece.Inner.of_read hr
    rw [← hp] at hk
    have hlast : ((s.here.place piece).after (taken s.pending rest')).lastStop =
        endOf s.here.lastStop piece.tokens := by
      rw [← hk, taken_append, ← lastStop_place s.here piece]
      rfl
    rw [← hk, inOrder_append] at hpending
    obtain ⟨hpiece, hrest⟩ := hpending
    have hle := hrest.le
    refine .inl ⟨_, s.here.calls_place piece, ?_, ?_, .inr ⟨t, rest, piece, rest', hp, hnone, hr, rfl⟩⟩
    · rw [hlast]
      exact hinner.lands hpiece (by omega)
    · rw [hlast]
      exact hrest

/-- A step adds calls to those of what was read, which go on from where the call stands, or it takes
over a node of the old tree. -/
theorem Leads.calls (hlimit : source.endOfInput ≤ limit)
    (ht : InOrder s.draft.lastStop s.tokens source.endOfInput) (hl : Leads source oldTree s s') :
    (∃ more, s'.draft.calls = s.draft.calls ++ more ∧
      Call.LandsPlain s.draft.lastStop more s'.draft.lastStop ∧
      InOrder s'.draft.lastStop s'.tokens source.endOfInput) ∨
    ∃ n, s.TakesOver source oldTree n ∧ s'.draft.calls = s.here.calls ++ [Call.reuse n.green] ∧
      s'.draft.lastStop = n.stopByte ∧ s'.tokens = tokensFrom source n.stopByte := by
  obtain ⟨hcomments, -⟩ := s.lands_comments hlimit ht
  refine (hl.calls_here hlimit ht).imp_left ?_
  rintro ⟨more, hmore, hplain, horder, -⟩
  refine ⟨callsOf (comments s.tokens).1 ++ more, ?_, Call.lands_append.2 ⟨_, hcomments, hplain⟩, horder⟩
  rw [hmore, s.calls_here, List.append_assoc]

end

/-! ## Calls that are halted and resumed -/

/-- Whether a state is reached by the steps of a call, or of several, each of which goes on from a
checkpoint of the one before it. -/
inductive Reached (source : Source) (oldTree : Option Tree) : State → Prop where
  | start : Reached source oldTree (State.start source none)
  | leads {s s'} : Reached source oldTree s → Leads source oldTree s s' → Reached source oldTree s'
  | resumed {s} : Reached source oldTree s →
    Reached source oldTree (State.start source (some (s.checkpoint source)))

/-- What is reached by steps is reached by further ones. -/
lemma Reached.steps {source : Source} {oldTree : Option Tree} {s s' : State}
    (h : Reached source oldTree s) (hs : Steps source oldTree s s') : Reached source oldTree s' := by
  induction hs with
  | refl => exact h
  | tail _ hl ih => exact ih.leads hl

/-- Whether a subtree without errors stands at a byte of the old tree. -/
def Offers (oldTree : Option Tree) (x : Nat) (g : Green) : Prop :=
  g.label.hasError = false ∧ ∃ t ∈ oldTree, ∃ path, t.root.locate? path = some (x, g)

/-- Whether the calls of what was read lead a builder to where the call stands, and the tokens after it
are still to be read. -/
structure State.Lands (Q : Nat → Green → Prop) (source : Source) (s : State) : Prop where
  calls : Call.Lands Q 0 s.draft.calls s.draft.lastStop
  tokens : InOrder s.draft.lastStop s.tokens source.endOfInput

/-- The comments that come next do so, too. -/
lemma State.Lands.here {Q : Nat → Green → Prop} {source : Source} {s : State}
    (h : s.Lands Q source) (hlimit : source.endOfInput ≤ limit) :
    Call.Lands Q 0 s.here.calls s.here.lastStop := by
  rw [s.calls_here]
  exact Call.lands_append.2 ⟨_, h.calls, (s.lands_comments hlimit h.tokens).1.lands⟩

section

variable {d : Document} {ranges : List Span} {oldTree : Option Tree} {s : State}

/-- The old tree offers a node that may be taken over at the end of what was read. -/
lemma offers_of_reusable {draft : Draft} {t : Token} {n : Node}
    (hd : d.bytes.length ≤ limit) (hold : ∀ t ∈ oldTree, t.root.Fits d.bytes)
    (hr : State.reusable? (.ofDocument d ranges) oldTree draft t = some n) :
    Offers oldTree draft.lastStop n.green ∧ n.stopByte = draft.lastStop + n.green.width ∧
      n.stopByte ≤ (Source.ofDocument d ranges).endOfInput := by
  obtain ⟨tree, htree, hmem, -, hle, -⟩ := exists_of_reusable hr
  have hfits := hold tree htree
  obtain ⟨herror, -, hstart, hstop, -⟩ := holds_of_mem_candidatesAt hfits hd hmem
  obtain ⟨path, -, hpath⟩ := Node.exists_descend?_of_mem_candidatesBelow hmem
  have hl := Tree.locate_of_descend? hd hfits hpath
  have htotal : n.totalStart = draft.lastStop := by
    show n.startByte - n.green.label.padding.bytes = draft.lastStop
    omega
  rw [htotal] at hl
  exact ⟨⟨herror, tree, htree, path, hl⟩, hstop, hle⟩

/-- What the old tree offers is tiled. -/
lemma Offers.tiled (hd : d.bytes.length ≤ limit) (hold : ∀ t ∈ oldTree, t.root.Fits d.bytes) {x : Nat}
    {g : Green} (h : Offers oldTree x g) : g.Tiled ∧ x + g.width ≤ limit := by
  obtain ⟨-, t, ht, path, hl⟩ := h
  obtain ⟨hg, hle⟩ := (hold t ht).locate hl
  have hwidth := (hold t ht).width_le
  exact ⟨hg.tiled, by omega⟩

/-- What is read from a byte on stands in order after it. -/
lemma inOrder_tokensFrom {x : Nat} (hx : x ≤ (Source.ofDocument d ranges).endOfInput) :
    InOrder x (tokensFrom (.ofDocument d ranges) x) (Source.ofDocument d ranges).endOfInput := by
  obtain ⟨blanks, hc, -⟩ := Lexer.covers_lexAll .plain ((Source.ofDocument d ranges).charsFrom x)
  exact hc.inOrder_charsFrom hx

/-- At the start of a document nothing was read. -/
lemma State.Lands.start (Q : Nat → Green → Prop) :
    (State.start (.ofDocument d ranges) none).Lands Q (.ofDocument d ranges) :=
  ⟨rfl, inOrder_tokensFrom (Nat.zero_le _)⟩

/-- A step goes on from where the call stands, if what the old tree offers belongs where it stands. -/
lemma State.Lands.leads {Q : Nat → Green → Prop} {s' : State} (hd : d.bytes.length ≤ limit)
    (hold : ∀ t ∈ oldTree, t.root.Fits d.bytes) (hQ : ∀ x g, Offers oldTree x g → Q x g)
    (h : s.Lands Q (.ofDocument d ranges)) (hl : Leads (.ofDocument d ranges) oldTree s s') :
    s'.Lands Q (.ofDocument d ranges) := by
  have hlimit := Source.endOfInput_le_limit hd ranges
  rcases hl.calls hlimit h.tokens with ⟨more, hmore, hplain, horder⟩ |
    ⟨n, ⟨t, rest, -, -, hr⟩, hmore, hlast, hnext⟩
  · refine ⟨?_, horder⟩
    rw [hmore]
    exact Call.lands_append.2 ⟨_, h.calls, hplain.lands⟩
  · obtain ⟨hoffers, hstop, hle⟩ := offers_of_reusable hd hold hr
    refine ⟨?_, ?_⟩
    · rw [hmore, hlast, hstop]
      exact Call.lands_append.2 ⟨_, h.here hlimit, hQ _ _ hoffers, rfl⟩
    · rw [hlast, hnext]
      exact inOrder_tokensFrom hle

/-- A call that goes on from a checkpoint goes on from there. -/
lemma State.Lands.restart {Q : Nat → Green → Prop} (h : s.Lands Q (.ofDocument d ranges)) :
    (State.start (.ofDocument d ranges) (some (s.checkpoint (.ofDocument d ranges)))).Lands Q
      (.ofDocument d ranges) :=
  ⟨h.calls, (inOrder_tokensFrom h.tokens.nextByte_le).of_le h.tokens.le_nextByte⟩

/-- In every state that is reached, the calls of what was read lead to where the call stands. -/
theorem Reached.lands (hd : d.bytes.length ≤ limit) (hold : ∀ t ∈ oldTree, t.root.Fits d.bytes)
    (h : Reached (.ofDocument d ranges) oldTree s) :
    s.Lands (Offers oldTree) (.ofDocument d ranges) := by
  induction h with
  | start => exact .start _
  | leads _ hl ih => exact ih.leads hd hold (fun _ _ h => h) hl
  | resumed _ ih => exact ih.restart

/-- Where subtrees are not taken over in some calls, a call that takes one over comes before them. -/
lemma exists_of_append_eq {a more before after : List Call} {g : Green}
    (h : a ++ more = before ++ Call.reuse g :: after) (hmore : Call.reuse g ∉ more) :
    ∃ after', a = before ++ Call.reuse g :: after' := by
  rcases List.append_eq_append_iff.1 h with ⟨u, -, hu⟩ | ⟨u, hu, hrest⟩
  · refine absurd ?_ hmore
    rw [hu]
    exact List.mem_append_right u (List.mem_cons_self ..)
  · cases u with
    | nil =>
      refine absurd ?_ hmore
      rw [← show _ = more from hrest]
      exact List.mem_cons_self ..
    | cons c u =>
      obtain ⟨rfl, -⟩ := List.cons.inj hrest
      exact ⟨u, hu⟩

/-- Each subtree among the calls of what was read was taken over in a state that had read what stands
before it. -/
theorem Reached.exists_takesOver (hd : d.bytes.length ≤ limit)
    (hold : ∀ t ∈ oldTree, t.root.Fits d.bytes) (h : Reached (.ofDocument d ranges) oldTree s)
    {before after : List Call} {g : Green} (hc : s.draft.calls = before ++ Call.reuse g :: after) :
    ∃ s₁ n, Reached (.ofDocument d ranges) oldTree s₁ ∧
      s₁.TakesOver (.ofDocument d ranges) oldTree n ∧ n.green = g ∧ s₁.here.calls = before := by
  have hlimit := Source.endOfInput_le_limit hd ranges
  induction h generalizing after with
  | start => cases before <;> simp [State.start, Draft.empty, Draft.calls, Draft.callsBefore, callsOf] at hc
  | @leads s s' h hl ih =>
    have htokens := (h.lands hd hold).tokens
    rcases hl.calls hlimit htokens with ⟨more, hmore, hplain, -⟩ | ⟨n, htakes, hmore, -, -⟩
    · rw [hmore] at hc
      obtain ⟨after', hafter⟩ := exists_of_append_eq hc hplain.not_mem_reuse
      exact ih hafter
    · rw [hmore] at hc
      rcases List.eq_nil_or_concat after with rfl | ⟨init, c, rfl⟩
      · obtain ⟨hbefore, hg⟩ := List.append_inj' hc rfl
        exact ⟨s, n, h, htakes, Call.reuse.inj (List.cons.inj hg).1, hbefore⟩
      · -- the subtree was taken over before
        rw [List.concat_eq_append, ← List.cons_append, ← List.append_assoc] at hc
        obtain ⟨hinit, -⟩ := List.append_inj' hc rfl
        rw [s.calls_here] at hinit
        have hplain := (s.lands_comments hlimit htokens).1
        obtain ⟨after', hafter⟩ := exists_of_append_eq hinit hplain.not_mem_reuse
        exact ih hafter
  | resumed _ ih => exact ih hc

end

/-- Calls are performed one after the other. -/
lemma Call.performAll_append (s : Source) (b : Builder) (calls more : List Call) :
    performAll s b (calls ++ more) = (performAll s b calls).bind fun b => performAll s b more :=
  List.foldlM_append

/-- So calls that can be performed can be performed up to any of them. -/
lemma Call.exists_performAll_of_append {s : Source} {b b' : Builder} {calls more : List Call}
    (h : performAll s b (calls ++ more) = .ok b') : ∃ b₁, performAll s b calls = .ok b₁ := by
  rw [performAll_append] at h
  obtain ⟨b₁, hcalls, -⟩ := bind_ok h
  exact ⟨b₁, hcalls⟩

/-- The calls that build a document are those of what was read when no block is open. -/
lemma State.calls_document {s : State} (hb : s.draft.blocks = []) :
    (Item.node none .document s.here.parts.reverse).calls = s.here.calls ++ [Call.finishNode] := by
  rw [Draft.calls, State.blocks_here, hb]
  rfl

section

variable {d : Document} {ranges : List Span} {oldTree : Option Tree} {s : State} {generation : Nat}

/-- When everything is read, each subtree that is given to a builder was taken over when the parse stood
where the builder then stands. -/
theorem Reached.exists_builder (hd : d.bytes.length ≤ limit)
    (hold : ∀ t ∈ oldTree, t.root.Fits d.bytes) (h : Reached (.ofDocument d ranges) oldTree s)
    (hb : s.draft.blocks = []) {before after : List Call} {g : Green}
    (hc : (Item.node none .document s.here.parts.reverse).calls = before ++ Call.reuse g :: after) :
    ∃ s₁ n b, Reached (.ofDocument d ranges) oldTree s₁ ∧
      s₁.TakesOver (.ofDocument d ranges) oldTree n ∧ n.green = g ∧ s₁.here.calls = before ∧
      Call.performAll (.ofDocument d ranges) (.new grammar generation) before = .ok b ∧
      b.position.bytes = s₁.here.lastStop := by
  have hlimit := Source.endOfInput_le_limit hd ranges
  -- the last calls take nothing over
  have hc' := hc
  rw [State.calls_document hb, State.calls_here, List.append_assoc] at hc'
  have hplain := (s.lands_comments hlimit (h.lands hd hold).tokens).1
  have hlast : Call.reuse g ∉ callsOf (comments s.tokens).1 ++ [Call.finishNode] := by
    intro hmem
    rcases List.mem_append.1 hmem with hmem | hmem
    · exact hplain.not_mem_reuse hmem
    · cases List.mem_singleton.1 hmem
  obtain ⟨after', hafter⟩ := exists_of_append_eq hc' hlast
  obtain ⟨s₁, n, hreached, htakes, hgreen, hbefore⟩ := h.exists_takesOver hd hold hafter
  obtain ⟨made, c, hadd, -⟩ := addTo_eq (.ofDocument d ranges)
    (.node none .document s.here.parts.reverse) (.new grammar generation) rfl
  have hall := performAll_calls (.ofDocument d ranges) (.node none .document s.here.parts.reverse)
    (.new grammar generation) []
  rw [List.append_nil, hadd, hc] at hall
  obtain ⟨b, hperform⟩ := Call.exists_performAll_of_append hall
  refine ⟨s₁, n, b, hreached, htakes, hgreen, hbefore, hperform, ?_⟩
  -- what was read before led to where the parse stood
  have hhere := (hreached.lands hd hold).here hlimit
  rw [hbefore] at hhere
  exact (hhere.performAll (fun _ _ hoffers => hoffers.tiled hd hold) (.new grammar generation)
    hperform).2.2

/-- When everything is read, the tree that is built has subtrees of the old tree where they stand in
that. -/
lemma Reached.lands_treeOf {t : Tree} (hd : d.bytes.length ≤ limit)
    (hold : ∀ t ∈ oldTree, t.root.Fits d.bytes) (h : Reached (.ofDocument d ranges) oldTree s)
    (hb : s.draft.blocks = [])
    (ht : treeOf (.ofDocument d ranges) generation s.here.parts.reverse = .ok t) :
    t.root.Lands (Offers oldTree) generation 0 := by
  have hlimit := Source.endOfInput_le_limit hd ranges
  have hhere := (h.lands hd hold).here hlimit
  rw [Draft.calls, State.blocks_here, hb] at hhere
  exact C.lands_treeOf (fun _ _ hoffers => hoffers.tiled hd hold) hhere ht

end

/-- Whether a parser has become another one by calls for a document that were all cancelled, each with
the same old tree. Between calls its settings may change if the language and the ranges are what they
were when it is called again. -/
inductive Resumed (d : Document) (oldTree : Option Tree) (p : Parser Checkpoint) :
    Parser Checkpoint → Prop where
  | refl : Resumed d oldTree p p
  | set {q q'} :
    Resumed d oldTree p q → q'.language = q.language → q'.includedRanges = q.includedRanges →
    q'.suspended = q.suspended → Resumed d oldTree p q'
  | called {q q' outside generation reason} :
    Resumed d oldTree p q →
    q.parse outside generation d oldTree = (.error (.error (.cancelled reason)), q') →
    Resumed d oldTree p q'

section

variable {p q q' : Parser Checkpoint} {d : Document} {oldTree : Option Tree} {t : Tree}
  {outside : Outside} {generation : Nat}

/-- A parser that was called again was used. -/
lemma Resumed.used {strict : Prop} (h : Resumed d oldTree p q) (hp : Used strict p)
    (hold : ∀ t ∈ oldTree, Matches strict d t) : Used strict q := by
  induction h with
  | refl => exact hp
  | set _ hl _ hsuspended ih => exact ih.set (hl.trans ih.pursues.1) (.inr hsuspended)
  | called _ hq ih => exact ih.called hold hq

/-- A call starts in a state that was reached. -/
lemma Resumed.reached (h : Resumed d oldTree p q) (hl : p.language = some language)
    (hnone : p.suspended.filter (p.continues language d) = none) :
    q.language = some language ∧
      Reached (.ofDocument d q.includedRanges) (oldTree.filter (q.admits language)) (startOf q d) := by
  induction h with
  | refl =>
    refine ⟨hl, ?_⟩
    rw [startOf, hnone]
    exact .start
  | @set q q' _ hl' hranges hsuspended ih =>
    obtain ⟨language', ranges, timeout, flag, suspended⟩ := q'
    obtain rfl : language' = q.language := hl'
    obtain rfl : ranges = q.includedRanges := hranges
    obtain rfl : suspended = q.suspended := hsuspended
    exact ih
  | @called q q' outside generation reason _ hq ih =>
    obtain ⟨hlanguage, hreached⟩ := ih
    obtain ⟨c, hhalted, rfl⟩ := halted_of_parse hlanguage hq
    obtain ⟨s, hsteps, rfl⟩ := exists_of_halted hhalted
    have hcontinues : q.continues language d ⟨grammar, d, q.includedRanges,
        s.checkpoint (.ofDocument d q.includedRanges)⟩ = true := by
      simp [Parser.continues, language]
    refine ⟨hlanguage, ?_⟩
    rw [startOf]
    dsimp only
    rw [Option.filter_some, if_pos (by exact hcontinues)]
    exact (hreached.steps hsteps).resumed

/-- A call that gives a tree has come to a state in which everything is read. -/
lemma exists_of_parse (hl : p.language = some language)
    (hp : p.parse outside generation d oldTree = (.ok t, q)) :
    ∃ s, Steps (.ofDocument d p.includedRanges) (oldTree.filter (p.admits language)) (startOf p d) s ∧
      s.draft.blocks = [] ∧
      treeOf (.ofDocument d p.includedRanges) generation s.here.parts.reverse = .ok t := by
  obtain ⟨s, parts, hsteps, hf, htree⟩ := exists_finished_of_parse hl hp
  obtain ⟨-, hblocks, rfl⟩ := of_finished hf
  exact ⟨s, hsteps, hblocks, htree⟩

/-- A call that returns a tree has reached the end of the input with no open block. -/
lemma Resumed.finished (h : Resumed d oldTree p q) (hl : p.language = some language)
    (hnone : p.suspended.filter (p.continues language d) = none)
    (hp : q.parse outside generation d oldTree = (.ok t, q')) :
    ∃ s, Reached (.ofDocument d q.includedRanges) (oldTree.filter (q.admits language)) s ∧
      s.draft.blocks = [] ∧
      treeOf (.ofDocument d q.includedRanges) generation s.here.parts.reverse = .ok t := by
  obtain ⟨hlanguage, hreached⟩ := h.reached hl hnone
  obtain ⟨s, hsteps, hfinished⟩ := exists_of_parse hlanguage hp
  exact ⟨s, hreached.steps hsteps, hfinished⟩

end

end C

/-! ## The new tree and the old one -/

/-- A node is at or below another one if a path leads from that to it. -/
lemma Node.mem_below_iff {n m : Node} : m ∈ n.below ↔ ∃ path, n.descend? path = some m := by
  constructor
  · intro hm
    induction hdepth : n.green.depth using Nat.strongRecOn generalizing n with
    | _ depth ih =>
      rw [below_eq] at hm
      cases hm with
      | head => exact ⟨[], rfl⟩
      | tail _ hm =>
        obtain ⟨c, hc, hm⟩ := List.mem_flatMap.1 hm
        obtain ⟨path, -, hpath⟩ := exists_descend?_of_mem hc (ih _ (hdepth ▸ depth_child_lt hc) hm rfl)
        exact ⟨path, hpath⟩
  · rintro ⟨path, hpath⟩
    induction path generalizing n with
    | nil =>
      obtain rfl := Option.some.inj hpath
      exact n.mem_below_self
    | cons i path ih =>
      obtain ⟨c, hc, hm⟩ := Option.bind_eq_some_iff.1 hpath
      exact mem_below_of_mem_inner (mem_inner_of_child (List.mem_of_getElem? hc) (ih hm))

namespace C

open Item

/-- The tree that is built of tokens reports errors. -/
lemma Builds.reports {strict : Prop} {source : Source} {e : State} {items : List Item} {t : Tree}
    (h : Builds strict source e items t) : t.root.Reports := by
  apply Green.Reports.of_bare
  rw [h.root]
  exact reports_builtRoot _ _ h.whole

section

variable {p₀ q₀ p q q' : Parser Checkpoint} {d₀ d : Document} {oldTree₀ oldTree : Option Tree}
  {t₀ old t : Tree} {outside₀ outside : Outside} {generation₀ generation : Nat}

/-- In two trees of a document, the one made in a generation apart from what the other one offers, a node
that was not made in it stands where the other one has it. -/
lemma exists_of_lands (hd : d.bytes.length ≤ limit) (hold : old.Spans d.lined) (hnew : t.Spans d.lined)
    (holds : ∀ t ∈ oldTree, t = old) (h : t.root.Lands (Offers oldTree) generation 0)
    (hreports : t.root.Reports) {n : Node} (hn : n ∈ t.rootNode.below)
    (hmade : n.green.label.stamp.generation ≠ generation) :
    n.hasError = false ∧
      ∃ m ∈ old.rootNode.below, m.green = n.green ∧ m.start = n.start ∧ m.stop = n.stop := by
  have hlined := d.length_lined.trans_le hd
  obtain ⟨path, hpath⟩ := Node.mem_below_iff.1 hn
  have hl := Tree.locate_of_descend? hlined hnew.fits hpath
  rcases h.locate hl with hgeneration | ⟨above, below, u, g, v, -, habove, hg, hbelow, htotal⟩
  · exact absurd hgeneration hmade
  obtain ⟨herror, tree, htree, above', habove'⟩ := hg
  obtain rfl := holds tree htree
  -- the node stands in the subtree as it does in that of the old tree
  have hm := Green.locate?_append habove' below
  rw [hbelow, Option.map_some, Nat.zero_add, ← htotal] at hm
  obtain ⟨m, hm, hgreen, hbyte⟩ := Tree.exists_descend?_of_locate hlined hold.fits hm
  obtain ⟨hstart, hstop⟩ :=
    hold.eq_of_totalStart hnew hlined d.encoding_lined hm hpath hgreen hbyte
  refine ⟨?_, m, Node.mem_below_iff.2 ⟨_, hm⟩, hgreen, hstart, hstop⟩
  exact ((hreports.locate habove).1.locate hbelow).2 herror

/-- Subtrees that a parse takes over land in place. A parser is given an old tree that an earlier parse
gave and that was edited along with its document, and is called with it again as long as it is cancelled;
the last call has a generation of its own, in which no node of the old tree was made. Each node of the
tree that comes of it which shares its storage with a node of the old tree starts and ends where a node of
the old tree with that storage does, and has neither marks nor errors. The parts of which the tree is
built, as calls of a builder, tell it of a subtree of the old tree exactly where it stands at the byte up
to which everything was read when the parse took the subtree over. -/
theorem Resumed.parse_lands (hused₀ : Used False p₀) (hold₀ : ∀ t ∈ oldTree₀, Matches False d₀ t)
    (hd₀ : d₀.bytes.length ≤ limit) (hp₀ : p₀.parse outside₀ generation₀ d₀ oldTree₀ = (.ok t₀, q₀))
    (hr : Revised d₀ t₀ d old)
    (hmade : ∀ m ∈ old.rootNode.below, m.green.label.stamp.generation ≠ generation)
    (hused : Used False p) (hnone : p.suspended.filter (p.continues language d) = none)
    (hresumed : Resumed d (some old) p q)
    (hp : q.parse outside generation d (some old) = (.ok t, q')) :
    (∀ n ∈ t.rootNode.below, (∃ m ∈ old.rootNode.below, n.sameStorage m = true) →
      (∃ m ∈ old.rootNode.below, n.sameStorage m = true ∧ m.start = n.start ∧ m.stop = n.stop) ∧
      n.hasChanges = false ∧ n.hasError = false) ∧
    ∃ parts, treeOf (.ofDocument d q.includedRanges) generation parts = .ok t ∧
      ∀ before g after, (Item.node none .document parts).calls = before ++ Call.reuse g :: after →
        ∃ s n b, Reached (.ofDocument d q.includedRanges) ((some old).filter (q.admits language)) s ∧
          s.TakesOver (.ofDocument d q.includedRanges) ((some old).filter (q.admits language)) n ∧
          n.green = g ∧ s.here.calls = before ∧
          Call.performAll (.ofDocument d q.includedRanges) (.new grammar generation) before = .ok b ∧
          b.position.bytes = s.here.lastStop := by
  obtain ⟨e₀, items₀, hbuilds₀⟩ := hused₀.builds hold₀ hd₀ (fun hf => hf.elim) hp₀
  obtain ⟨hd, hspans₀⟩ := (hbuilds₀.spans_lined hd₀).revised hd₀ hr
  have hmatches : ∀ t ∈ some old, Matches False d t := by
    intro t ht
    obtain rfl := Option.some.inj ht
    exact (hused₀.unmarked hold₀ hd₀ (fun hf => hf.elim) hp₀).2.editedAlong hr.editedAlong
  have hqused := hresumed.used hused hmatches
  obtain ⟨e, items, hbuilds⟩ := hqused.builds hmatches hd (fun hf => hf.elim) hp
  have hunmarked := (hqused.unmarked hmatches hd (fun hf => hf.elim) hp).1
  have hspans := hbuilds.spans_lined hd
  obtain ⟨s, hreached, hblocks, htree⟩ := hresumed.finished hused.pursues.1 hnone hp
  have hfits : ∀ t ∈ (some old).filter (q.admits language), t.root.Fits d.bytes :=
    fun t ht => (hmatches t (Option.filter_eq_some_iff.1 ht).1).known.fits
  refine ⟨fun n hn hshared => ?_, s.here.parts.reverse, htree, fun before g after hc =>
    hreached.exists_builder hd hfits hblocks hc⟩
  obtain ⟨m', hm', hstorage⟩ := hshared
  have hstamp : n.green.label.stamp = m'.green.label.stamp := eq_of_beq hstorage
  have hgeneration : n.green.label.stamp.generation ≠ generation := by
    rw [hstamp]
    exact hmade m' hm'
  have hfilter : ∀ t ∈ (some old).filter (q.admits language), t = old :=
    fun t ht => (Option.some.inj (Option.filter_eq_some_iff.1 ht).1).symm
  obtain ⟨herror, m, hm, hgreen, hstart, hstop⟩ := exists_of_lands hd hspans₀ hspans hfilter
    (hreached.lands_treeOf hd hfits hblocks htree) hbuilds.reports hn hgeneration
  refine ⟨⟨m, hm, ?_, hstart, hstop⟩, ?_, herror⟩
  · rw [Node.sameStorage, hgreen]
    exact beq_self_eq_true _
  · obtain ⟨path, hpath⟩ := Node.mem_below_iff.1 hn
    have hlined : d.lined.bytes.length ≤ limit := by
      rw [d.length_lined]
      exact hd
    exact hunmarked path _ _ (Tree.locate_of_descend? hlined hspans.fits hpath)

/-- The word of the first of the statements `x;y;` is replaced: the second one is taken over, and stands
in the new tree where it stands in the old one. -/
theorem Resumed.parse_lands_second :
    ∃ t₀ t n, (plainParser.parse stillWorld 0 ⟨[120, 59, 121, 59], .utf8⟩ none).1 = .ok t₀ ∧
      (plainParser.parse stillWorld 2 ⟨[121, 122, 59, 121, 59], .utf8⟩
        (some (t₀.edit 1 ⟨.zero, ⟨1, ⟨0, 1⟩⟩, ⟨2, ⟨0, 2⟩⟩⟩))).1 = .ok t ∧
      t.rootNode.descend? [1] = some n ∧
      (∃ m ∈ (t₀.edit 1 ⟨.zero, ⟨1, ⟨0, 1⟩⟩, ⟨2, ⟨0, 2⟩⟩⟩).rootNode.below, n.sameStorage m = true ∧
        m.start = n.start ∧ m.stop = n.stop) ∧ n.hasChanges = false ∧ n.hasError = false := by
  have hused : Used False plainParser := .new rfl rfl
  obtain ⟨-, -, t₀, -, -, -, hp₀⟩ := @parse_of_neverFires plainParser stillWorld
    ⟨[120, 59, 121, 59], .utf8⟩ 0 rfl neverFires_plainParser
  have hreplaced : Replaced ⟨[120, 59, 121, 59], .utf8⟩ t₀ ⟨[121, 122, 59, 121, 59], .utf8⟩
      (t₀.edit 1 ⟨.zero, ⟨1, ⟨0, 1⟩⟩, ⟨2, ⟨0, 2⟩⟩⟩) :=
    @Replaced.tail _ _ _ _ 0 1 [121, 122] _ 1 .refl (by decide) (by decide) (by decide) (by decide)
  have hrevised := hreplaced.revised rfl (by decide)
  have hmatches : Matches False ⟨[120, 59, 121, 59], .utf8⟩ t₀ :=
    .parsed hused (fun _ ht => by cases ht) (by decide) (fun hf => hf.elim) hp₀
  have hold : ∀ t ∈ some (t₀.edit 1 ⟨.zero, ⟨1, ⟨0, 1⟩⟩, ⟨2, ⟨0, 2⟩⟩⟩),
      Matches False ⟨[121, 122, 59, 121, 59], .utf8⟩ t := by
    rintro _ ⟨⟩
    exact hmatches.editedAlong hrevised.editedAlong
  obtain ⟨t, hp⟩ := (hused.parse_cases hold (fun hf => hf.elim) stillWorld 2).resolve_right
    fun h => h.1 neverFires_plainParser
  -- no node of the old tree is of the new generation, and the second statement is shared
  have hmade : ((plainParser.parse stillWorld 0 ⟨[120, 59, 121, 59], .utf8⟩ none).1.toOption.map
      fun t₀ => (t₀.edit 1 ⟨.zero, ⟨1, ⟨0, 1⟩⟩, ⟨2, ⟨0, 2⟩⟩⟩).rootNode.below.all
        fun m => m.green.label.stamp.generation ≠ 2) = some true := by
    decide +kernel
  have hshared : ((plainParser.parse stillWorld 0 ⟨[120, 59, 121, 59], .utf8⟩ none).1.toOption.bind
      fun t₀ => (plainParser.parse stillWorld 2 ⟨[121, 122, 59, 121, 59], .utf8⟩
        (some (t₀.edit 1 ⟨.zero, ⟨1, ⟨0, 1⟩⟩, ⟨2, ⟨0, 2⟩⟩⟩))).1.toOption.bind
          fun t => (t.rootNode.descend? [1]).map
            fun n => (t₀.edit 1 ⟨.zero, ⟨1, ⟨0, 1⟩⟩, ⟨2, ⟨0, 2⟩⟩⟩).rootNode.below.any
              fun m => n.sameStorage m) = some true := by
    decide +kernel
  simp only [hp₀, hp, Except.toOption, Option.map_some, Option.bind_some, Option.some.injEq] at hmade hshared
  obtain ⟨n, hn, hstorage⟩ := Option.map_eq_some_iff.1 hshared
  have hlands := (Resumed.parse_lands hused (fun _ ht => by cases ht) (by decide) hp₀ hrevised
    (fun m hm => of_decide_eq_true (List.all_eq_true.1 hmade m hm)) hused rfl .refl hp).1
  exact ⟨t₀, t, n, by rw [hp₀], by rw [hp], hn,
    hlands n (Node.mem_below_iff.2 ⟨_, hn⟩) (List.any_eq_true.1 hstorage)⟩

end

end C

end Reparse
