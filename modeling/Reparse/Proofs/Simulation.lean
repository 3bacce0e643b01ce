import Reparse.Proofs.Growth

/-!
# Simulation

A call with an old tree that matches the document goes through states that become states of a call
without one when every subtree that was taken over is replaced by what it stands for
(`State.Grows.leads`).
-/

namespace Reparse.C

open Item

/-! ## Where items start -/

namespace Item

/-- An item that may stand at the top of a document is under no field. -/
lemma Is.field_eq_none {c : Category} {f : Option Field} {rule : Rule} {parts : List Item}
    (h : (Item.node f rule parts).Is c) (hc : c = .statement ∨ c = .topLevel) : f = none := by
  have hd := h.derives
  rw [shapes] at hd
  generalize shapesOf parts = ss at hd
  rcases hc with rfl | rfl
  · cases hd <;> rfl
  · cases hd with
    | loose hd => cases hd <;> rfl
    | definition => rfl

/-- What may stand at the top of a document and is no function definition may stand in a block. -/
lemma Is.statement {rule : Rule} {parts : List Item} (h : (Item.node none rule parts).Is .topLevel)
    (hr : rule ≠ .functionDefinition) : (Item.node none rule parts).Is .statement := by
  refine ⟨?_, h.tidy, h.isComment, h.isLoose⟩
  have hd := h.derives
  rw [shapes] at hd ⊢
  generalize shapesOf parts = ss at hd ⊢
  cases hd with
  | loose hd => exact hd
  | definition => exact absurd rfl hr

/-- Of a rule that may be taken over where a draft stands, it may stand there. -/
lemma Is.category {draft : Draft} {rule : Rule} {parts : List Item}
    (h : (Item.node none rule parts).Is .topLevel)
    (hr : rule ∈ if draft.blocks.isEmpty then reusableAtTop else reusableInBlock) :
    (Item.node none rule parts).Is draft.category := by
  unfold Draft.category
  split at hr
  · rw [if_pos ‹_›]
    exact h
  · rw [if_neg ‹_›]
    refine h.statement ?_
    rintro rfl
    exact absurd hr (by decide)

/-- Blocks and function definitions start with a token that is no part of a string. -/
lemma Is.plain_head {rule : Rule} {parts : List Item} (h : (Item.node none rule parts).Is .topLevel)
    (hr : rule = .compoundStatement ∨ rule = .functionDefinition) :
    ∀ t ∈ (Item.node none rule parts).tokens.head?, t.kind.isPlain = true := by
  obtain ⟨t, w, ht, htc⟩ := h.tidy.tokens_head h.isComment
  have hk := h.tidy.kinds_tokens
  rw [ht, kinds_cons htc] at hk
  have hd := h.derives
  rw [shapes] at hd hk
  generalize shapesOf parts = ss at hd hk
  rw [ht]
  rintro _ ⟨⟩
  have hfirst : t.kind = .leftBrace ∨ t.kind = .primitiveType := by
    cases hd with
    | loose hd =>
      cases hd with
      | compound =>
        simp only [Shape.leavesOf, Shape.leaves, List.cons_append, List.nil_append] at hk
        exact .inl (List.cons.inj hk).1
      | _ => rcases hr with hr | hr <;> cases hr
    | definition =>
      simp only [Shape.leavesOf, Shape.leaves, List.cons_append, List.nil_append] at hk
      exact .inr (List.cons.inj hk).1
  rcases hfirst with h | h <;> rw [h] <;> rfl

end Item

/-- A token that is no part of a string may be read from where it starts. -/
lemma tokensFrom_of_plain {source : Source} {x : Nat} {pre post : List Token} {t : Token}
    (ho : Ordered source.chars) (h : tokensFrom source x = pre ++ t :: post)
    (ht : t.kind.isPlain = true) : tokensFrom source t.start = t :: post := by
  have hstart : ∀ {y}, tokensFrom source y = t :: post → tokensFrom source t.start = t :: post := by
    intro y hy
    obtain ⟨blanks, hc, -⟩ := Lexer.covers_lexAll .plain (source.charsFrom y)
    have hc' : Covers (source.charsFrom y) (t :: post) blanks := hy ▸ hc
    rw [← Covers.tokensFrom_start ho hc', hy]
  rcases List.eq_nil_or_concat pre with rfl | ⟨pre, u, rfl⟩
  · exact hstart h
  · rw [List.concat_eq_append, List.append_assoc] at h
    obtain ⟨mode, rest, hc, hb, -⟩ := Lexer.exists_of_lexAll_eq h
    have hrest := hc.charsFrom_stop ho
    refine @hstart u.stop ?_
    show Lexer.lexAll .plain (source.charsFrom u.stop) = t :: post
    rw [hrest]
    exact Lexer.lexAll_of_isPlain hb.symm ht

/-! ## Drafts -/

section

variable {strict : Prop} {d : Document} {ranges : List Span}

/-- Whether open blocks become others when what was taken over is replaced. -/
def BlocksGrow (strict : Prop) (d : Document) (ranges : List Span) : List Block → List Block → Prop
  | [], [] => True
  | b :: outer, b' :: outer' =>
    b.definition = b'.definition ∧ InnerAll (b'.definition.getD []) ∧
    GrowsAll strict d ranges (endOf 0 (Draft.tokensBefore outer')) b.outer.reverse b'.outer.reverse ∧
    BlocksGrow strict d ranges outer outer'
  | _, _ => False

/-- Whether a draft becomes another one when what was taken over is replaced. -/
structure Draft.Grows (strict : Prop) (d : Document) (ranges : List Span) (a b : Draft) : Prop where
  parts : GrowsAll strict d ranges (endOf 0 (Draft.tokensBefore b.blocks)) a.parts.reverse
    b.parts.reverse
  blocks : BlocksGrow strict d ranges a.blocks b.blocks
  lastStop : a.lastStop = b.lastStop

namespace Draft.Grows

variable {a b : Draft}

/-- The empty draft grows into itself. -/
lemma empty : Draft.empty.Grows strict d ranges Draft.empty := ⟨.nil, trivial, rfl⟩

/-- A draft is noted by no more events than the one that it grows into. -/
lemma volume_le (h : a.Grows strict d ranges b) : a.volume ≤ b.volume := by
  have hblocks : ∀ {bs bs' : List Block}, BlocksGrow strict d ranges bs bs' →
      (bs.map Block.volume).sum ≤ (bs'.map Block.volume).sum := by
    intro bs
    induction bs with
    | nil => exact fun _ => Nat.zero_le _
    | cons o outer ih =>
      intro bs' hgrow
      cases bs' with
      | nil => exact hgrow.elim
      | cons o' outer' =>
        obtain ⟨hdefinition, -, houter, hrest⟩ := hgrow
        have hvolume := houter.volumeOf_le
        simp only [volumeOf_reverse] at hvolume
        have hmore := ih hrest
        simp only [List.map_cons, List.sum_cons, Block.volume, hdefinition]
        omega
  have hparts := h.parts.volumeOf_le
  simp only [volumeOf_reverse] at hparts
  exact Nat.add_le_add hparts (hblocks h.blocks)

/-- What is still to come does not matter to how a draft grows. -/
lemma after (h : a.Grows strict d ranges b) (ts : List Token) :
    (a.after ts).Grows strict d ranges (b.after ts) :=
  ⟨h.parts, h.blocks, by rw [Draft.after, Draft.after, h.lastStop]⟩

/-- A draft has open blocks if the one that it grows into has. -/
lemma isEmpty_blocks (h : a.Grows strict d ranges b) : a.blocks.isEmpty = b.blocks.isEmpty := by
  have hb := h.blocks
  cases ha : a.blocks <;> cases hb' : b.blocks <;> rw [ha, hb'] at hb <;>
    first | rfl | exact hb.elim

/-- Where parts of a draft end. -/
lemma endOf_tokens (d : Draft) : endOf 0 d.tokens =
    endOf (endOf 0 (Draft.tokensBefore d.blocks)) (tokensOf d.parts.reverse) := by
  rw [Draft.tokens, endOf_append]

/-- Items that grow may be added. -/
lemma add (h : a.Grows strict d ranges b) {items items' : List Item}
    (hi : GrowsAll strict d ranges (endOf 0 b.tokens) items items') :
    (a.add items).Grows strict d ranges (b.add items') := by
  refine ⟨?_, h.blocks, h.lastStop⟩
  rw [endOf_tokens] at hi
  show GrowsAll strict d ranges _ (items.reverse ++ a.parts).reverse (items'.reverse ++ b.parts).reverse
  rw [List.reverse_append, List.reverse_append, List.reverse_reverse, List.reverse_reverse]
  exact h.parts.append hi

/-- A piece that holds no subtree of an old tree. -/
lemma place (h : a.Grows strict d ranges b) {p : Piece} (hp : p.Inner)
    (he : p.Each (Item.Proper strict (.ofDocument d ranges))) :
    (a.place p).Grows strict d ranges (b.place p) := by
  cases p with
  | whole item => exact h.add (.single (.of_each _ he))
  | opened definition brace =>
    refine ⟨.single .token, ⟨rfl, hp, h.parts, h.blocks⟩, h.lastStop⟩

/-- The innermost block, closed. -/
lemma closed (h : a.Grows strict d ranges b) {o o' : Block} {outer outer' : List Block}
    (ha : a.blocks = o :: outer) (hb : b.blocks = o' :: outer') {closing : List Item}
    (hc : InnerAll closing) (hne : closing ≠ []) (lastStop : Nat)
    (hbody : (Item.node none .compoundStatement (b.parts.reverse ++ closing)).Proper strict
      (.ofDocument d ranges))
    (hdefinition : ∀ head, o'.definition = some head → (Item.node none .functionDefinition
      (head ++ [Item.node (some .body) .compoundStatement (b.parts.reverse ++ closing)])).Proper strict
        (.ofDocument d ranges)) :
    (Draft.mk (Draft.closedBlock o (a.parts.reverse ++ closing) :: o.outer) outer
      lastStop).Grows strict d ranges
      (Draft.mk (Draft.closedBlock o' (b.parts.reverse ++ closing) :: o'.outer) outer' lastStop) := by
  have hblocks := h.blocks
  have hparts := h.parts
  rw [ha, hb] at hblocks
  rw [hb] at hparts
  obtain ⟨hdef, hinner, houter, hrest⟩ := hblocks
  refine ⟨?_, hrest, rfl⟩
  have hall := hparts.append (GrowsAll.of_inner (endOf _ (tokensOf b.parts.reverse)) hc)
  have hnode : ∀ f, C.Grows strict d ranges _ (.node f .compoundStatement (a.parts.reverse ++ closing))
      (.node f .compoundStatement (b.parts.reverse ++ closing)) := fun f =>
    .node (List.append_ne_nil_of_right_ne_nil _ hne) (fun _ => hbody) hall
  show GrowsAll strict d ranges (endOf 0 (Draft.tokensBefore outer'))
    (Draft.closedBlock o (a.parts.reverse ++ closing) :: o.outer).reverse
    (Draft.closedBlock o' (b.parts.reverse ++ closing) :: o'.outer).reverse
  rw [List.reverse_cons, List.reverse_cons]
  refine houter.append (.single ?_)
  have hstart : endOf 0 (Draft.tokensBefore (o' :: outer')) =
      endOf (endOf (endOf 0 (Draft.tokensBefore outer')) (tokensOf o'.outer.reverse))
        (tokensOf (o'.definition.getD [])) := by
    rw [Draft.tokensBefore, endOf_append, endOf_append]
  unfold Draft.closedBlock
  rw [hdef]
  cases hd : o'.definition with
  | none =>
    rw [hd] at hstart
    have hn := hnode none
    rw [hstart] at hn
    exact hn
  | some head =>
    rw [hd] at hstart hinner
    have hn := hnode (some .body)
    rw [hstart] at hn
    exact .node (List.append_ne_nil_of_right_ne_nil _ (List.cons_ne_nil _ _))
      (fun _ => hdefinition head hd) ((GrowsAll.of_inner _ hinner).append (.single hn))

end Draft.Grows

end

/-! ## Steps without an old tree -/

/-- What is taken before the last tokens is the others. -/
lemma taken_append (a b : List Token) : taken (a ++ b) b = a := by
  rw [taken, List.length_append, Nat.add_sub_cancel, List.take_left]

/-- A piece does not change where the last token stops. -/
lemma lastStop_place (d : Draft) (piece : Piece) : (d.place piece).lastStop = d.lastStop := by
  cases piece <;> rfl

/-- What is taken to expect a token are the tokens that are read. -/
lemma taken_expect (kind : Terminal) (field : Option Field) (ts : List Token) :
    taken ts (expect kind field ts).2 = tokensOf (expect kind field ts).1 := by
  have hk := taken_append (tokensOf (expect kind field ts).1) (expect kind field ts).2
  rwa [keeps_expect kind field ts] at hk

/-- The comments of a state are the tokens before those that are pending. -/
lemma State.comments_append (s : State) : tokensOf (comments s.tokens).1 ++ s.pending = s.tokens :=
  keeps_comments s.tokens

/-- Comments are the last tokens of a draft. -/
lemma State.tokens_here (s : State) :
    s.here.tokens = s.draft.tokens ++ tokensOf (comments s.tokens).1 := by
  rw [here, Draft.tokens_after, Draft.tokens_add]

/-- A draft stops after its comments. -/
lemma State.lastStop_here (s : State) :
    s.here.lastStop = endOf s.draft.lastStop (tokensOf (comments s.tokens).1) := by
  have ht : taken s.tokens s.pending = tokensOf (comments s.tokens).1 := by
    rw [← taken_append (tokensOf (comments s.tokens).1) s.pending, s.comments_append]
  rw [here, ht]
  rfl

/-- A step without an old tree takes tokens from the front into the draft. -/
lemma Leads.exists_taken {source : Source} {s s' : State} (h : Leads source none s s') :
    ∃ ts, s.tokens = ts ++ s'.tokens ∧ s'.draft.tokens = s.draft.tokens ++ ts ∧
      s'.draft.lastStop = endOf s.draft.lastStop ts := by
  have hall := tokens_steps (.single h)
  suffices hs : ∃ ts, s.tokens = ts ++ s'.tokens ∧
      s'.draft.lastStop = endOf s.draft.lastStop ts by
    obtain ⟨ts, ht, hl⟩ := hs
    refine ⟨ts, ht, ?_, hl⟩
    rw [ht, ← List.append_assoc] at hall
    exact List.append_cancel_right hall
  have hpending := s.comments_append
  cases h.moves with
  | @closes b outer hb _ =>
    have hk : tokensOf (expect .rightBrace none s.pending).1 ++
        (expect .rightBrace none s.pending).2 = s.pending := keeps_expect .rightBrace none s.pending
    refine ⟨tokensOf (comments s.tokens).1 ++ tokensOf (expect .rightBrace none s.pending).1, ?_, ?_⟩
    · rw [List.append_assoc, hk, hpending]
    · rw [taken_expect, endOf_append, ← s.lastStop_here]
      rfl
  | reuses _ _ hr => simp [State.reusable?] at hr
  | @reads t rest piece rest' hp _ _ hr =>
    have hk : piece.tokens ++ rest' = s.pending := (Piece.Inner.of_read hr).2.trans hp.symm
    refine ⟨tokensOf (comments s.tokens).1 ++ piece.tokens, ?_, ?_⟩
    · rw [List.append_assoc, hk, hpending]
    · rw [← hk, taken_append, endOf_append, ← s.lastStop_here, ← lastStop_place s.here piece]
      rfl

/-- A block is closed where nothing but its brace can come next. -/
lemma leads_of_closes (source : Source) {s : State} {b : Block} {outer : List Block}
    (hb : s.draft.blocks = b :: outer) (hk : ∀ k, ahead? s.tokens = some k → k = .rightBrace) :
    Leads source none s
      ⟨(Draft.mk (Draft.closedBlock b (s.here.parts.reverse ++
          (expect .rightBrace none s.pending).1) :: b.outer) outer s.here.lastStop).after
        (taken s.pending (expect .rightBrace none s.pending).2),
        (expect .rightBrace none s.pending).2⟩ := by
  have hahead : ∀ t rest, s.pending = t :: rest → t.kind = .rightBrace := fun t rest hp =>
    hk t.kind (by rw [show ahead? s.tokens = s.pending.head?.map (·.kind) from rfl, hp]; rfl)
  have hne : s.draft.blocks ≠ [] := by
    rw [hb]
    exact List.cons_ne_nil _ _
  rcases step_cases source none s with ⟨-, -, hb'⟩ | ⟨checks, s', hn, hm⟩
  · exact absurd hb' hne
  · cases hm with
    | closes hb' _ =>
      obtain ⟨rfl, rfl⟩ := List.cons.inj (hb.symm.trans hb')
      exact ⟨checks, hn⟩
    | reuses hp hk' _ => exact absurd (hahead _ _ hp) (hk' hne)
    | reads hp hk' _ _ => exact absurd (hahead _ _ hp) (hk' hne)

/-- A step ends with what it has read, and not with a comment. -/
lemma Leads.head_parts {source : Source} {s s' : State} (h : Leads source none s s') :
    ∃ i parts, s'.draft.parts = i :: parts ∧ i.isComment = false := by
  cases h.moves with
  | @closes b outer hb _ =>
    refine ⟨_, _, rfl, ?_⟩
    unfold Draft.closedBlock
    split <;> rfl
  | reuses _ _ hr => simp [State.reusable?] at hr
  | @reads t rest piece rest' hp _ _ hr =>
    have hsound := Piece.sound_of_read (State.isComment_of_pending hp) hr
    cases piece with
    | whole item => exact ⟨item, _, rfl, hsound.1⟩
    | opened definition brace =>
      refine ⟨.token none brace, [], rfl, ?_⟩
      simp [isComment, Token.isComment, hsound.1]

/-- Comments are noted by at most ten events each. -/
lemma State.volume_here_add_le (s : State) :
    s.here.volume + 10 * s.pending.length ≤ s.draft.volume + 10 * s.tokens.length := by
  have hvolume : s.here.volume = s.draft.volume + volumeOf (comments s.tokens).1 := s.draft.volume_add _
  have haffords := affords_comments s.tokens
  have htokens := congrArg List.length s.comments_append
  simp only [Affords, List.length_append] at haffords htokens
  omega

/-- Comments do not lead to more than ten events for each token. -/
lemma State.volume_here_le (s : State) (hs : s.draft.volume ≤ 10 * s.draft.tokens.length) :
    s.here.volume ≤ 10 * s.here.tokens.length := by
  have hhere := s.volume_here_add_le
  have htokens := congrArg List.length s.comments_append
  rw [s.tokens_here]
  simp only [List.length_append] at htokens ⊢
  omega

/-- A step without an old tree notes at most ten events for each token that it takes. -/
lemma Leads.volume_le {source : Source} {s s' : State} (h : Leads source none s s')
    (hs : s.draft.volume ≤ 10 * s.draft.tokens.length) : s'.draft.volume ≤ 10 * s'.draft.tokens.length := by
  have hhere := s.volume_here_le hs
  cases h.moves with
  | @closes b outer hb _ =>
    have hclosed := Draft.volume_closed (s.blocks_here.trans hb) (expect .rightBrace none s.pending).1
      s.here.lastStop
    have hbrace := affords_expect .rightBrace none s.pending
    -- what is taken are the comments and the brace
    obtain ⟨ts, hsplit, htokens, -⟩ := h.exists_taken
    have hlength := congrArg List.length (hsplit.symm.trans s.comments_append.symm)
    have hkeeps := congrArg List.length (keeps_expect .rightBrace none s.pending)
    rw [s.tokens_here] at hhere
    rw [htokens]
    simp only [Affords, List.length_append] at hbrace hlength hkeeps hhere ⊢
    show (Draft.mk (Draft.closedBlock b (s.here.parts.reverse ++ _) :: b.outer) outer
      s.here.lastStop).volume ≤ _
    omega
  | reuses _ _ hr => simp [State.reusable?] at hr
  | @reads t rest piece rest' hp _ _ hr =>
    have hpiece := Piece.volume_of_read (State.isComment_of_pending hp) hr
    show (s.here.place piece).volume ≤ 10 * (s.here.place piece).tokens.length
    rw [Draft.volume_place, Draft.tokens_place, List.length_append]
    omega

/-! ## Good states -/

/-- Whether a state is one of a call without an old tree: its parts fit, its tokens cut up the
characters of its source and looked at the next of them, and if `strict`, a call that is not interrupted
reaches it. -/
structure State.Good (strict : Prop) (source : Source) (e : State) : Prop where
  sound : e.draft.Sound
  covers : ∃ blanks, Covers source.chars (e.draft.tokens ++ e.tokens) blanks ∧ AllBlank blanks
  lastStop : e.draft.lastStop = endOf 0 e.draft.tokens
  fresh : strict → Steps source none (State.start source none) e
  volume : e.draft.volume ≤ 10 * e.draft.tokens.length
  ahead : ∀ t ∈ e.draft.tokens ++ e.tokens, t.lookahead = Lexer.widthAhead (source.charsFrom t.stop)

namespace State.Good

variable {strict : Prop} {source : Source} {e e' : State}

/-- A parse starts in a good state. -/
lemma start (strict : Prop) (ho : Ordered source.chars) :
    (State.start source none).Good strict source where
  sound := .empty
  covers := (State.Faithful.start source).covers
  lastStop := rfl
  fresh := fun _ => .refl
  volume := Nat.le_refl _
  ahead := fun _ ht => lookahead_of_mem_tokensFrom ho ht

/-- A step from a good state leads to a good one. -/
lemma leads (h : e.Good strict source) (hl : Leads source none e e') : e'.Good strict source where
  sound := h.sound.leads hl
  covers := by
    rw [tokens_steps (.single hl)]
    exact h.covers
  lastStop := by
    obtain ⟨ts, -, ht, hs⟩ := hl.exists_taken
    rw [hs, ht, endOf_append, h.lastStop]
  fresh := fun hs => (h.fresh hs).tail hl
  volume := hl.volume_le h.volume
  ahead := by
    rw [tokens_steps (.single hl)]
    exact h.ahead

/-- Steps from a good state lead to good ones. -/
lemma steps (h : e.Good strict source) (hs : Steps source none e e') : e'.Good strict source := by
  induction hs with
  | refl => exact h
  | tail _ hl ih => exact ih.leads hl

/-- A good state is one of a call that may have been interrupted. -/
lemma loosen (h : e.Good strict source) : e.Good False source :=
  ⟨h.sound, h.covers, h.lastStop, False.elim, h.volume, h.ahead⟩

/-- A call goes on from the checkpoint of a good state in a good state. -/
lemma restart (ho : Ordered source.chars) (hs : strict → Settled source) (h : e.Good strict source) :
    (State.start source (some (e.checkpoint source))).Good strict source where
  sound := h.sound
  covers := by
    obtain ⟨blanks, hc, hb⟩ := h.covers
    exact hc.restart ho hb
  lastStop := h.lastStop
  fresh := fun hstrict => by
    rw [(hs hstrict).start (h.fresh hstrict)]
    exact h.fresh hstrict
  volume := h.volume
  ahead := fun t ht => by
    rcases List.mem_append.1 ht with ht | ht
    · exact h.ahead t (List.mem_append_left _ ht)
    · exact lookahead_of_mem_tokensFrom ho ht

/-- A good state stops after its tokens. -/
lemma lastStop_here (h : e.Good strict source) : e.here.lastStop = endOf 0 e.here.tokens := by
  rw [e.lastStop_here, e.tokens_here, endOf_append, h.lastStop]

end State.Good

section

variable {strict : Prop} {d : Document} {ranges : List Span} {e e' : State}

namespace State.Good

/-- The tokens of a good state up to its comments end where the document is parted, and the pending
ones cut up the characters from there on. -/
lemma covers_pending (h : e.Good strict (.ofDocument d ranges)) :
    PartedAt d (endOf 0 e.here.tokens) ∧
      Covers (Source.ofDocument d ranges).chars e.here.tokens
        ((Source.ofDocument d ranges).charsFrom (endOf 0 e.here.tokens)) ∧
      ∃ blanks, Covers ((Source.ofDocument d ranges).charsFrom (endOf 0 e.here.tokens)) e.pending
        blanks ∧ AllBlank blanks := by
  obtain ⟨blanks, hc, hb⟩ := h.covers
  rw [← e.comments_append, ← List.append_assoc, ← e.tokens_here] at hc
  obtain ⟨mid, h1, h2⟩ := hc.split
  have h1' := h1
  rw [← Source.charsFrom_zero] at h1'
  obtain ⟨hp, rfl⟩ := h1'.parted (PartedAt.zero d)
  exact ⟨hp, h1, blanks, h2, hb⟩

/-- The tokens of a good state stand in order. -/
lemma inOrder (h : e.Good strict (.ofDocument d ranges)) :
    InOrder 0 (e.draft.tokens ++ e.tokens) (Source.ofDocument d ranges).endOfInput := by
  have ho := Source.ordered_chars d ranges
  obtain ⟨blanks, hc, -⟩ := h.covers
  exact hc.inOrder ho (fun _ _ => Nat.zero_le _) (Nat.zero_le _)
    fun c hc => Source.stop_le_endOfInput ho hc

/-- A good state goes on after what it has read. -/
lemma endOf_le_byte (h : e.Good strict (.ofDocument d ranges)) :
    endOf 0 e.draft.tokens ≤ e.byte (.ofDocument d ranges) := by
  obtain ⟨-, htokens⟩ := inOrder_append.1 h.inOrder
  unfold State.byte
  cases he : e.tokens with
  | nil =>
    rw [he] at htokens
    exact htokens
  | cons t rest =>
    rw [he] at htokens
    exact htokens.1

/-- In a settled document, the tokens that are pending are read from where they start. -/
lemma tokensFrom_pending (h : e.Good strict (.ofDocument d ranges))
    (hs : strict → Settled (.ofDocument d ranges)) (hstrict : strict) {t : Token} {rest : List Token}
    (hp : e.pending = t :: rest) : tokensFrom (.ofDocument d ranges) t.start = t :: rest := by
  have ho := Source.ordered_chars d ranges
  have hbyte := hs hstrict e (h.fresh hstrict)
  have hcomments := e.comments_append
  rcases List.eq_nil_or_concat (tokensOf (comments e.tokens).1) with hn | ⟨pre, u, hu⟩
  · -- without comments the call goes on at the first pending token
    rw [hn, List.nil_append, hp] at hcomments
    rw [State.byte, ← hcomments] at hbyte
    exact hbyte
  · -- a comment is no part of a string, so that the tokens after it may be read from where it stops
    rw [List.concat_eq_append] at hu
    rw [hu, List.append_assoc, List.singleton_append, hp] at hcomments
    have hplain : u.kind.isPlain = true := by
      have hmem : Item.token none u ∈ (comments e.tokens).1 := by
        have hm : u ∈ tokensOf (comments e.tokens).1 := by
          rw [hu]
          exact List.mem_append_right _ (List.mem_singleton_self u)
        simp only [comments, tokensOf_map_token] at hm ⊢
        exact List.mem_map_of_mem hm
      obtain ⟨u', hu', hc⟩ := allComments_comments e.tokens _ hmem
      obtain ⟨-, rfl⟩ := Item.token.inj hu'
      rw [Token.isComment, beq_iff_eq] at hc
      rw [hc]
      rfl
    have hstop := tokensFrom_stop ho (hbyte.trans hcomments.symm) hplain
    obtain ⟨blanks, hc, -⟩ := Lexer.covers_lexAll .plain
      ((Source.ofDocument d ranges).charsFrom u.stop)
    have hc' : Covers ((Source.ofDocument d ranges).charsFrom u.stop) (t :: rest) blanks := by
      rw [hstop]
      exact hc
    rw [← Covers.tokensFrom_start ho hc', ← hstop]

end State.Good

/-- What a sound draft holds beyond another one fits. -/
lemma Draft.Sound.fits_of_append {a b : Draft} {new : List Item} (h : b.Sound) (ha : a.Sound)
    (hb : b.blocks = a.blocks) (hp : b.parts = new ++ a.parts) :
    ∀ i ∈ new, i.Fits a.category := by
  intro i hi
  unfold Draft.Sound at h ha
  rw [hb, hp] at h
  unfold Draft.category
  cases hblocks : a.blocks with
  | nil =>
    rw [hblocks] at h
    exact h i (List.mem_append_left _ hi)
  | cons b outer =>
    rw [hblocks] at h ha
    obtain ⟨⟨newer, brace, hn, -, hfits⟩, -⟩ := h
    obtain ⟨⟨newer', brace', hn', -, -⟩, -⟩ := ha
    rw [hn', ← List.append_assoc] at hn
    obtain ⟨rfl, -⟩ := List.append_inj' hn rfl
    exact hfits i (List.mem_append_left _ hi)

/-- The tokens of a draft that holds some items more than another one. -/
lemma Draft.tokens_eq_append {a b : Draft} {new : List Item} (hb : b.blocks = a.blocks)
    (hp : b.parts = new.reverse ++ a.parts) : b.tokens = a.tokens ++ tokensOf new := by
  rw [Draft.tokens, Draft.tokens, hb, hp, List.reverse_append, List.reverse_reverse,
    tokensOf_append, List.append_assoc]

/-- The state after an item that was taken over. -/
def State.grafted (source : Source) (e : State) (i : Item) (stop : Nat) : State :=
  ⟨{ e.here.add [i] with lastStop := stop }, tokensFrom source stop⟩

/-- What a draft asks for next is read. -/
lemma stepsRead_of_category (source : Source) {ss : List Shape} {ks : List Terminal}
    (h : Derives e.draft.category ss) (hk : kinds e.tokens = Shape.leavesOf ss ++ ks) :
    StepsRead source e ss ks := by
  unfold Draft.category at h
  cases hb : e.draft.blocks with
  | nil =>
    have htop : Derives .topLevel ss := by simpa [hb] using h
    exact htop.stepsRead source e ks hk hb
  | cons b outer =>
    have hstatement : Derives .statement ss := by simpa [hb] using h
    exact hstatement.stepsRead source e ks hk

/-- Items of the same shapes are the same where they are read from the same tokens, if no comment is
the last of them. -/
lemma eq_of_tokensOf {as bs : List Item} {i j : Item} {c c' : Category} {rest rest' : List Token}
    (ha : TidyAll (as ++ [i])) (hb : TidyAll (bs ++ [j])) (hi : i.Is c) (hj : j.Is c')
    (hs : shapesOf (as ++ [i]) = shapesOf (bs ++ [j]))
    (ht : tokensOf (as ++ [i]) ++ rest = tokensOf (bs ++ [j]) ++ rest') :
    as ++ [i] = bs ++ [j] ∧ rest = rest' := by
  have hlast : ∀ {cs : List Item} {k : Item} {c : Category}, k.Is c → ∀ (v : List Token) (t : Token),
      tokensOf (cs ++ [k]) = v ++ [t] → t.isComment = false := by
    intro cs k c hk v t hv
    obtain ⟨pre, last, hlast, hlastc⟩ := hk.tidy.tokens_last hk.ends
    rw [tokensOf_append, tokensOf, tokensOf, List.append_nil, hlast, ← List.append_assoc] at hv
    obtain ⟨-, h⟩ := List.append_inj' hv rfl
    rw [← List.singleton_inj.1 h]
    exact hlastc
  obtain ⟨htok, hrest⟩ := append_inj_of_kinds ht
    (by rw [ha.kinds_tokensOf, hb.kinds_tokensOf, hs]) (fun _ => hlast hj) fun _ => hlast hi
  exact ⟨ha.eq_of_shapesOf_eq hb hs htok, hrest⟩

/-- What a call without an old tree reads where items of a category come next: items of the same
shapes, the last of which is of the category. -/
lemma exists_steps_of_kinds {source : Source} {i : Item} {ks : List Terminal}
    (he : e.Good strict source) (hi : i.Is e.draft.category)
    (hk : kinds e.tokens = Shape.leavesOf i.shapes ++ ks) :
    ∃ e' is j, Steps source none e e' ∧ e'.draft.blocks = e.draft.blocks ∧
      e'.draft.parts = (is ++ [j]).reverse ++ e.draft.parts ∧ TidyAll (is ++ [j]) ∧
      shapesOf (is ++ [j]) = i.shapes ∧ j.Is e.draft.category := by
  obtain ⟨e', is, hs, hb, hparts, hshapes, herror, -⟩ :=
    stepsRead_of_category source hi.derives hk
  have he' := he.steps hs
  have hfits : ∀ j ∈ is, j.Fits e.draft.category := fun j hj =>
    he'.sound.fits_of_append he.sound hb hparts j (List.mem_reverse.2 hj)
  obtain ⟨ss, -, hspells⟩ := @spells_parts _ (fun _ => True) trivial (fun _ _ _ _ => trivial) is []
    hfits herror
  have hne : is ≠ [] := by
    rintro rfl
    obtain ⟨sh, hsh, -⟩ := hi.exists_shape
    rw [hsh] at hshapes
    cases hshapes
  obtain ⟨is, j, rfl⟩ : ∃ is' j, is = is' ++ [j] :=
    ⟨is.dropLast, is.getLast hne, (List.dropLast_concat_getLast hne).symm⟩
  refine ⟨e', is, j, hs, hb, hparts, hspells.tidy, hshapes, ?_⟩
  -- a call does not stop at a comment
  have hj : j.isComment = false := by
    rcases Relation.ReflTransGen.cases_tail hs with rfl | ⟨e₁, -, hl⟩
    · have hlen := congrArg List.length hparts
      simp only [List.length_append, List.length_reverse, List.length_singleton] at hlen
      omega
    · obtain ⟨k, parts, hk, hc⟩ := hl.head_parts
      rw [hparts] at hk
      simp only [List.reverse_append, List.reverse_singleton, List.cons_append] at hk
      obtain ⟨rfl, -⟩ := List.cons.inj hk
      exact hc
  rcases hfits j (List.mem_append_right _ (List.mem_singleton_self j)) with ⟨t, rfl, ht⟩ | ⟨-, h⟩
  · simp [isComment, ht] at hj
  · rw [hasErrorOf_append, Bool.or_eq_false_iff] at herror
    exact h (by simpa [hasErrorOf] using herror.2)

/-- What a call without an old tree reads where a subtree may be taken over: the item that the
subtree stands for. -/
theorem steps_of_pending {source : Source} {i : Item} {stop : Nat} (he : e.Good strict source)
    (hi : i.Is e.draft.category) (hp : e.pending = i.tokens ++ tokensFrom source stop)
    (hstop : endOf (endOf 0 e.here.tokens) i.tokens = stop) :
    Steps source none e (e.grafted source i stop) := by
  have hcomments := allComments_comments e.tokens
  have hkinds : kinds e.tokens = Shape.leavesOf i.shapes ++ kinds (tokensFrom source stop) := by
    rw [← kinds_comments, ← hi.tidy.kinds_tokens, ← kinds_append, ← hp]
    rfl
  obtain ⟨e', is, j, hs, hb, hparts, htidy, hshapes, hj⟩ := exists_steps_of_kinds he hi hkinds
  have htidy' : TidyAll ((comments e.tokens).1 ++ [i]) :=
    hcomments.tidyAll.append ⟨hi.tidy, trivial, fun _ => rfl⟩ fun h => by
      rw [hcomments.endsLoose] at h
      cases h
  have hshapes' : shapesOf ((comments e.tokens).1 ++ [i]) = i.shapes := by
    simp [hcomments.shapesOf, shapesOf]
  -- they have the tokens of the item and of the comments before it
  have htokens : tokensOf (is ++ [j]) ++ e'.tokens =
      tokensOf ((comments e.tokens).1 ++ [i]) ++ tokensFrom source stop := by
    have hkept := tokens_steps hs
    rw [Draft.tokens_eq_append hb hparts, List.append_assoc, ← e.comments_append, hp] at hkept
    rw [List.append_cancel_left hkept, tokensOf_append, tokensOf, tokensOf, List.append_nil,
      List.append_assoc]
  obtain ⟨heq, hrest⟩ := eq_of_tokensOf htidy htidy' hj hi (hshapes.trans hshapes'.symm) htokens
  -- and the call has come to the state after the item
  suffices h : e' = e.grafted source i stop by
    rw [← h]
    exact hs
  have hlastStop : e'.draft.lastStop = stop := by
    rw [(he.steps hs).lastStop, Draft.tokens_eq_append hb hparts, heq, tokensOf_append,
      ← List.append_assoc, ← e.tokens_here, endOf_append, tokensOf, tokensOf, List.append_nil, hstop]
  obtain ⟨⟨parts, blocks, lastStop⟩, tokens⟩ := e'
  dsimp only at hb hparts hlastStop hrest
  subst hb hparts hlastStop hrest
  rw [heq]
  simp [State.grafted, Draft.add]

/-- The state after what a subtree stands for is good. -/
theorem State.Good.graft {g : Green} {i : Item} (hs : strict → Settled (.ofDocument d ranges))
    (he : e.Good strict (.ofDocument d ranges)) {t : Token} {rest : List Token}
    (hp : e.pending = t :: rest) (hi : i.Is e.draft.category)
    (h : StandsFor strict (.ofDocument d ranges) (endOf 0 e.here.tokens) g i) :
    (e.grafted (.ofDocument d ranges) i (endOf 0 e.here.tokens + g.width)).Good strict
      (.ofDocument d ranges) := by
  have ho := Source.ordered_chars d ranges
  obtain ⟨-, hhere, blanks, hpending, -⟩ := he.covers_pending
  have htokens : (e.grafted (.ofDocument d ranges) i (endOf 0 e.here.tokens + g.width)).draft.tokens =
      e.here.tokens ++ i.tokens := by
    show (e.here.add [i]).tokens = _
    rw [Draft.tokens_add, tokensOf, tokensOf, List.append_nil]
  refine ⟨?_, ?_, ?_, fun hstrict => ?_, ?_, fun u hu => ?_⟩
  · refine Draft.Sound.add he.sound.here fun j hj => ?_
    obtain rfl := List.mem_singleton.1 hj
    exact .inr ⟨hi.isComment, fun _ => hi⟩
  · obtain ⟨blanks', hc, hb⟩ := Lexer.covers_lexAll .plain
      ((Source.ofDocument d ranges).charsFrom (endOf 0 e.here.tokens + g.width))
    rw [htokens]
    exact ⟨blanks', (hhere.append h.covers).append hc, hb⟩
  · rw [htokens, endOf_append, h.stop]
    rfl
  · refine (he.fresh hstrict).trans (steps_of_pending he hi ?_ h.stop)
    rw [hp] at hpending ⊢
    rw [← he.tokensFrom_pending hs hstrict hp, ← Covers.tokensFrom_start ho hpending]
    exact h.lexed hstrict
  · have hhere := e.volume_here_le he.volume
    have hi := hi.affords
    simp only [Affords, volumeOf, tokensOf, List.append_nil] at hi
    rw [htokens, List.length_append]
    show (e.here.add [i]).volume ≤ _
    rw [Draft.volume_add]
    simp only [volumeOf]
    omega
  · rw [htokens, List.append_assoc] at hu
    rcases List.mem_append.1 hu with hu | hu
    · refine he.ahead u ?_
      rw [← e.comments_append, ← List.append_assoc, ← e.tokens_here]
      exact List.mem_append_left _ hu
    · rcases List.mem_append.1 hu with hu | hu
      · exact h.ahead u hu
      · exact lookahead_of_mem_tokensFrom ho hu

/-! ## Simulation -/

/-- Whether a state of a call becomes one of a call without an old tree when what was taken over is
replaced. -/
structure State.Grows (strict : Prop) (d : Document) (ranges : List Span) (s e : State) : Prop where
  draft : s.draft.Grows strict d ranges e.draft
  tokens : s.tokens = e.tokens

namespace State.Grows

variable {s s' : State}

/-- A state has the same tokens before it as the one that it grows into. -/
lemma pending (h : s.Grows strict d ranges e) : s.pending = e.pending := by
  rw [State.pending, h.tokens]
  rfl

/-- Comments may be added to a state that grows. -/
lemma here (h : s.Grows strict d ranges e) : s.here.Grows strict d ranges e.here := by
  have ht := h.tokens
  have hp := h.pending
  unfold State.here
  rw [hp, ht]
  exact (h.draft.add (.of_inner _ (inner_comments e.tokens))).after _

end State.Grows

/-- An item that starts outside of strings is lexed from where it starts. -/
lemma Item.Lexed.of_plain {source : Source} {x : Nat} {i : Item} {pre post : List Token}
    (ho : Ordered source.chars) (h : tokensFrom source x = pre ++ (i.tokens ++ post))
    (hi : ∀ t ∈ i.tokens.head?, t.kind.isPlain = true) : i.Lexed source := by
  intro t ht
  obtain ⟨ts, hts⟩ := List.head?_eq_some_iff.1 (Option.mem_def.1 ht)
  refine ⟨post, ?_⟩
  rw [hts, List.cons_append] at h ⊢
  exact tokensFrom_of_plain ho h (hi t ht)

/-- The statement that a good state reads is proper. -/
lemma State.Good.proper_read (he : e.Good strict (.ofDocument d ranges))
    (hs : strict → Settled (.ofDocument d ranges)) {t : Token} {rest rest' : List Token}
    {piece : Piece} (hp : e.pending = t :: rest)
    (hr : (if e.draft.blocks.isEmpty then topLevel t rest else statement t rest) = (piece, rest')) :
    piece.Inner ∧ piece.Each (Item.Proper strict (.ofDocument d ranges)) := by
  obtain ⟨hinner, htokens⟩ := Piece.Inner.of_read hr
  have hsound := Piece.sound_of_read (State.isComment_of_pending hp) hr
  refine ⟨hinner, hinner.each fun f rule parts hw _ herror => ?_⟩
  subst hw
  have hi : (Item.node f rule parts).Is e.draft.category := hsound.2 herror
  have hcategory : e.draft.category = .statement ∨ e.draft.category = .topLevel := by
    unfold Draft.category
    split
    · exact .inr rfl
    · exact .inl rfl
  obtain rfl := hi.field_eq_none hcategory
  refine ⟨?_, fun hstrict u hu => ⟨rest', ?_⟩⟩
  · rcases hcategory with hc | hc
    · rw [hc] at hi
      exact hi.loose
    · rw [hc] at hi
      exact hi
  · have hhead : u = t := by
      have h : ((Item.node none rule parts).tokens ++ rest').head? = some t := by
        rw [show (Item.node none rule parts).tokens ++ rest' = t :: rest from htokens]
        rfl
      rw [List.head?_append, Option.mem_def.1 hu] at h
      exact Option.some.inj h
    rw [hhead, he.tokensFrom_pending hs hstrict hp, ← htokens]
    rfl

/-- The innermost block of a good state and the function definition around it are proper once they
are closed. -/
lemma State.Good.proper_closed (he : e.Good strict (.ofDocument d ranges)) {b : Block}
    {outer : List Block} (hb : e.draft.blocks = b :: outer) :
    (Item.node none .compoundStatement (e.here.parts.reverse ++
        (expect .rightBrace none e.pending).1)).Proper strict (.ofDocument d ranges) ∧
      ∀ head, b.definition = some head → (Item.node none .functionDefinition (head ++
        [Item.node (some .body) .compoundStatement (e.here.parts.reverse ++
          (expect .rightBrace none e.pending).1)])).Proper strict (.ofDocument d ranges) := by
  have ho := Source.ordered_chars d ranges
  have hfit : PartsFit (b :: outer) e.here.parts := by
    rw [← hb]
    exact he.sound.here
  obtain ⟨⟨newer, brace, hparts, hbrace, hn⟩, hd, -, -⟩ := hfit
  -- all tokens of the document, cut where the block and where its definition begins
  have htokens : strict → tokensFrom (.ofDocument d ranges) 0 =
      Draft.tokensBefore outer ++ tokensOf b.outer.reverse ++ (tokensOf (b.definition.getD []) ++
        (tokensOf (e.here.parts.reverse ++ (expect .rightBrace none e.pending).1) ++
          (expect .rightBrace none e.pending).2)) := by
    intro hstrict
    have hk : tokensOf (expect .rightBrace none e.pending).1 ++
        (expect .rightBrace none e.pending).2 = e.pending := keeps_expect .rightBrace none e.pending
    have hhere : Draft.tokensBefore outer ++ tokensOf b.outer.reverse ++
        tokensOf (b.definition.getD []) ++ tokensOf e.here.parts.reverse = e.here.tokens := by
      rw [Draft.tokens, State.blocks_here, hb]
      rfl
    have hall : e.draft.tokens ++ e.tokens = tokensFrom (.ofDocument d ranges) 0 :=
      tokens_steps (he.fresh hstrict)
    rw [← hall, ← e.comments_append, ← List.append_assoc, ← e.tokens_here, ← hhere, tokensOf_append]
    conv_lhs => rw [← hk]
    simp only [List.append_assoc]
  constructor
  · intro herror
    rw [hparts] at herror ⊢
    obtain ⟨-, -, his, -⟩ := is_compound hbrace hn (by simpa [hasError] using herror)
    refine ⟨his.loose, fun hstrict => ?_⟩
    have ht := htokens hstrict
    rw [hparts, ← List.append_assoc] at ht
    exact .of_plain ho ht (his.loose.plain_head (.inl rfl))
  · intro head hdef herror
    have hf := fits_closedBlock e.pending hbrace hn hd
    rw [← hparts, Draft.closedBlock, hdef] at hf
    obtain ⟨-, hi⟩ := hf.resolve_left (by rintro ⟨t, ht, -⟩; cases ht)
    have his : (Item.node none .functionDefinition _).Is .topLevel := hi herror
    refine ⟨his, fun hstrict => ?_⟩
    have ht := htokens hstrict
    have hnode : ∀ parts, (Item.node none .functionDefinition
        (head ++ [Item.node (some .body) .compoundStatement parts])).tokens =
        tokensOf head ++ tokensOf parts := fun parts => by
      rw [Item.tokens, tokensOf_append, tokensOf, tokensOf, List.append_nil, Item.tokens]
    rw [hdef, Option.getD_some, ← List.append_assoc (tokensOf head), ← hnode] at ht
    exact .of_plain ho ht (his.plain_head (.inr rfl))

/-- Whether it is known by a document what the nodes of a tree are, and its marks can be relied on. -/
structure Known (strict : Prop) (d : Document) (ranges : List Span) (t : Tree) : Prop where
  length_le : d.bytes.length ≤ limit
  holds : t.root.Holds (Regrown strict d.encoding) (d.cells (Source.effectiveRanges ranges))
  guarded : t.root.Guarded d.bytes

/-- A known tree fits its document. -/
lemma Known.fits {t : Tree} (h : Known strict d ranges t) : t.root.Fits d.bytes :=
  h.holds.fits (Nat.le_of_eq (Document.length_cells ..))

/-- A subtree of the old tree that is taken over stands for an item that may come next. -/
lemma exists_standsFor {oldTree : Option Tree} {draft : Draft} {t : Token} {n : Node}
    (hold : ∀ t ∈ oldTree, Known strict d ranges t) (hp : PartedAt d draft.lastStop)
    (hr : State.reusable? (.ofDocument d ranges) oldTree draft t = some n) :
    n.startByte = t.start ∧ n.stopByte = draft.lastStop + n.green.width ∧
      n.green.Holds (Regrown strict d.encoding)
        ((d.cells (Source.effectiveRanges ranges)).drop draft.lastStop) ∧
      n.green.Clear d.bytes.length draft.lastStop ∧
      ∃ i, i.Is draft.category ∧
        StandsFor strict (.ofDocument d ranges) draft.lastStop n.green i := by
  obtain ⟨tree, htree, hmem, hstart, -, rule, hrule, hsymbol⟩ := exists_of_reusable hr
  obtain ⟨hd, hroot, hguarded⟩ := hold tree htree
  have hclear := hguarded.candidate (hold tree htree).fits hd hmem
  have hlen : (d.cells (Source.effectiveRanges ranges)).length ≤ limit := by
    rw [Document.length_cells]
    exact hd
  obtain ⟨herror, hfit, -, hstop, hholds, hregrown⟩ := holds_of_mem_candidatesAt hroot hlen hmem
  rw [Document.length_cells] at hfit
  obtain ⟨parts, hstands⟩ := hregrown.graft hd hp hfit herror (mem_reusableAtTop hrule) hsymbol.symm
  exact ⟨hstart, hstop, hholds, hclear, _, hstands.is.category hrule, hstands⟩

/-! ## Progress -/

/-- Whether a step has led on: to a later byte, where it may have opened a block, or to the same byte
with fewer open blocks. -/
def State.Advances (source : Source) (s s' : State) : Prop :=
  (s.byte source < s'.byte source ∧ s'.draft.blocks.length ≤ s.draft.blocks.length + 1) ∨
    (s'.byte source = s.byte source ∧ s'.draft.blocks.length < s.draft.blocks.length)

/-- A step without an old tree opens at most one block. -/
lemma Leads.length_blocks_le {source : Source} {s s' : State} (h : Leads source none s s') :
    s'.draft.blocks.length ≤ s.draft.blocks.length + 1 := by
  cases h.moves with
  | @closes b outer hb _ =>
    rw [hb, List.length_cons]
    exact Nat.le_add_right_of_le (Nat.le_succ _)
  | reuses _ _ hr => simp [State.reusable?] at hr
  | @reads t rest piece rest' hp _ _ hr =>
    have h := Draft.length_blocks_place s.here piece
    rw [State.blocks_here] at h
    exact h

/-- Tokens that are taken into a draft lie after the byte where a call goes on. -/
lemma State.Good.lt_byte (h : e'.Good strict (.ofDocument d ranges)) {ts us : List Token}
    (ht : e.tokens = ts ++ us) (hts : ts ≠ []) (more : List Token)
    (hdraft : e'.draft.tokens = e.draft.tokens ++ ts ++ more) :
    e.byte (.ofDocument d ranges) < e'.byte (.ofDocument d ranges) := by
  have horder := h.inOrder
  have hle := h.endOf_le_byte
  obtain ⟨t, ts, rfl⟩ := List.exists_cons_of_ne_nil hts
  rw [hdraft, inOrder_append, inOrder_append, inOrder_append] at horder
  obtain ⟨⟨⟨-, -, hlt, horder⟩, hmore⟩, -⟩ := horder
  have h1 := horder.le
  have h2 := hmore.le
  rw [hdraft, endOf_append, endOf_append] at hle
  rw [endOf_append, endOf_cons] at h2
  rw [endOf_append, endOf_cons] at h1
  have hbyte : e.byte (.ofDocument d ranges) = t.start := by
    rw [State.byte, ht]
    rfl
  rw [endOf_cons] at hle
  omega

/-- Without an old tree, a step leads on. -/
lemma State.Good.advances (he : e.Good strict (.ofDocument d ranges))
    (hl : Leads (.ofDocument d ranges) none e e') : e.Advances (.ofDocument d ranges) e' := by
  obtain ⟨ts, ht, hdraft, -⟩ := hl.exists_taken
  by_cases hts : ts = []
  · subst hts
    have hlt := remaining_lt hl
    rw [List.nil_append] at ht
    simp only [State.remaining, ← ht] at hlt
    refine .inr ⟨?_, by omega⟩
    rw [State.byte, State.byte, ht]
  · refine .inl ⟨(he.leads hl).lt_byte ht hts [] ?_, hl.length_blocks_le⟩
    rw [hdraft, List.append_nil]

/-- A subtree that is taken over goes beyond the token at which it starts. -/
lemma StandsFor.start_lt {x : Nat} {g : Green} {i : Item} {t : Token} {rest : List Token}
    {blanks : List SourceChar} (h : StandsFor strict (.ofDocument d ranges) x g i)
    (hc : Covers ((Source.ofDocument d ranges).charsFrom x) (t :: rest) blanks) :
    t.start < x + g.width := by
  have ho := Source.ordered_chars d ranges
  obtain ⟨before, hchars, hblank⟩ := hc.charsFrom_start ho
  obtain ⟨ts, last, ht, hk⟩ := h.is.closer
  have hcovers := h.covers
  have hstop := h.stop
  rw [ht] at hcovers hstop
  rw [endOf_append, endOf_cons, endOf_nil] at hstop
  obtain ⟨mid, h1, h2⟩ := hcovers.split
  obtain ⟨v, hv⟩ := h1.suffix
  generalize (Source.ofDocument d ranges).charsFrom (x + g.width) = after at h2
  cases h2 with
  | @cons between piece cs _ _ _ _ hs _ =>
    -- the last character of the subtree is no blank, so that it does not stand before the token
    obtain ⟨c, rfl, hchar⟩ := hs.closer hk
    have hcstop : c.stop = last.stop := by simpa using hs.stop
    have hmem : c ∈ before ++ (Source.ofDocument d ranges).charsFrom t.start := by
      rw [← hchars, hv]
      simp
    have hfrom : c ∈ (Source.ofDocument d ranges).charsFrom t.start := by
      refine (List.mem_append.1 hmem).resolve_left fun hb => ?_
      have hb := hblank c hb
      rcases hchar with hchar | hchar <;> rw [hchar] at hb <;> exact absurd hb (by decide)
    have hle := Source.le_byte_of_mem_charsFrom ho hfrom
    have hlt : c.byte < c.stop := by
      obtain ⟨u, hu, -⟩ := (Source.ofDocument d ranges).exists_charsFrom t.start
      exact SourceChar.byte_lt_stop (ho.width c (by rw [hu]; exact List.mem_append_right u hfrom))
    omega

/-- Taking a subtree over leads on. -/
lemma State.Good.advances_graft {g : Green} {i : Item}
    (hs : strict → Settled (.ofDocument d ranges)) (he : e.Good strict (.ofDocument d ranges))
    {t : Token} {rest : List Token} (hp : e.pending = t :: rest) (hi : i.Is e.draft.category)
    (h : StandsFor strict (.ofDocument d ranges) (endOf 0 e.here.tokens) g i) :
    e.Advances (.ofDocument d ranges)
      (e.grafted (.ofDocument d ranges) i (endOf 0 e.here.tokens + g.width)) := by
  have he' := he.graft hs hp hi h
  have hcomments := e.comments_append
  refine .inl ⟨?_, Nat.le_succ _⟩
  by_cases hc : tokensOf (comments e.tokens).1 = []
  · obtain ⟨-, -, blanks, hpending, -⟩ := he.covers_pending
    rw [hp] at hpending
    rw [hc, List.nil_append, hp] at hcomments
    have hlt := h.start_lt hpending
    have hle := he'.endOf_le_byte
    rw [← he'.lastStop] at hle
    have hbyte : e.byte (.ofDocument d ranges) = t.start := by
      rw [State.byte, ← hcomments]
      rfl
    rw [hbyte]
    exact Nat.lt_of_lt_of_le hlt hle
  · refine he'.lt_byte hcomments.symm hc i.tokens ?_
    show (e.here.add [i]).tokens = _
    rw [Draft.tokens_add, e.tokens_here, tokensOf, tokensOf, List.append_nil]

/-- What follows a step of a call: a step of a call without an old tree, or, where a node of the old tree
is taken over, the item that it stands for. -/
lemma State.Grows.moves {s s' : State} {oldTree : Option Tree}
    (hs : strict → Settled (.ofDocument d ranges)) (h : s.Grows strict d ranges e)
    (he : e.Good strict (.ofDocument d ranges)) (hl : Leads (.ofDocument d ranges) oldTree s s') :
    (∃ e', s'.Grows strict d ranges e' ∧ Leads (.ofDocument d ranges) none e e') ∨
    ∃ t rest n, e.pending = t :: rest ∧ s.here.lastStop = endOf 0 e.here.tokens ∧
      s.here.category = e.draft.category ∧
      State.reusable? (.ofDocument d ranges) oldTree s.here t = some n ∧
      ∀ i, StandsFor strict (.ofDocument d ranges) (endOf 0 e.here.tokens) n.green i →
        n.stopByte = endOf 0 e.here.tokens + n.green.width →
        n.green.Holds (Regrown strict d.encoding)
          ((d.cells (Source.effectiveRanges ranges)).drop (endOf 0 e.here.tokens)) →
        n.green.Clear d.bytes.length (endOf 0 e.here.tokens) →
        s'.Grows strict d ranges
          (e.grafted (.ofDocument d ranges) i (endOf 0 e.here.tokens + n.green.width)) := by
  have hhere := h.here
  have hpending := h.pending
  have hempty := h.draft.isEmpty_blocks
  cases hl.moves with
  | @closes b outer hb hk =>
    rw [h.tokens] at hk
    obtain ⟨b', outer', hb'⟩ : ∃ b' outer', e.draft.blocks = b' :: outer' := by
      cases he : e.draft.blocks with
      | nil =>
        rw [hb, he] at hempty
        cases hempty
      | cons b' outer' => exact ⟨b', outer', rfl⟩
    -- the state that follows has as many open blocks, so it can close one as well
    obtain ⟨hbody, hdefinition⟩ := he.proper_closed hb'
    refine .inl ⟨_, ⟨?_, ?_⟩, leads_of_closes (.ofDocument d ranges) hb' hk⟩
    · rw [hpending]
      refine .after ?_ _
      rw [hhere.lastStop]
      exact hhere.closed hb hb' (inner_expect .rightBrace none e.pending)
        (expect_ne_nil .rightBrace none e.pending) _ hbody hdefinition
    · rw [hpending]
  | @reuses t rest n hp hk hr =>
    rw [hpending] at hp
    refine .inr ⟨t, rest, n, hp, hhere.lastStop.trans he.lastStop_here, ?_, hr,
      fun i hstands hstop hholds hclear => ⟨?_, ?_⟩⟩
    · unfold Draft.category
      rw [State.blocks_here, hempty]
    · -- the state that follows takes the item that the node stands for
      have hadd := hhere.add (.single (.reused hstands hholds hclear))
      exact ⟨hadd.parts, hadd.blocks, hstop⟩
    · show tokensFrom _ _ = tokensFrom _ _
      rw [hstop]
  | @reads t rest piece rest' hp hk _ hr =>
    have hp' := hpending.symm.trans hp
    rw [hempty] at hr
    have hl' := leads_reads (.ofDocument d ranges) hp' (fun hb => hk fun hb' => hb ?_) hr
    · obtain ⟨hinner, heach⟩ := he.proper_read hs hp' hr
      refine .inl ⟨_, ?_, hl'⟩
      rw [hpending]
      exact ⟨(hhere.place hinner heach).after _, rfl⟩
    · rw [hb'] at hempty
      exact List.isEmpty_iff.1 hempty.symm

/-- A step of a call is followed by what a call without an old tree reads instead, and it leads on. -/
theorem State.Grows.leads {s s' : State} {oldTree : Option Tree}
    (hs : strict → Settled (.ofDocument d ranges)) (hold : ∀ t ∈ oldTree, Known strict d ranges t)
    (h : s.Grows strict d ranges e) (he : e.Good strict (.ofDocument d ranges))
    (hl : Leads (.ofDocument d ranges) oldTree s s') :
    ∃ e', s'.Grows strict d ranges e' ∧ e'.Good strict (.ofDocument d ranges) ∧
      e.Advances (.ofDocument d ranges) e' := by
  rcases h.moves hs he hl with ⟨e', hg, hl'⟩ | ⟨t, rest, n, hp, hlast, hcategory, hr, hgrows⟩
  · exact ⟨e', hg, he.leads hl', he.advances hl'⟩
  · obtain ⟨hparted, -⟩ := he.covers_pending
    obtain ⟨-, hstop, hholds, hclear, i, hi, hstands⟩ :=
      exists_standsFor hold (by rw [hlast]; exact hparted) hr
    rw [hcategory] at hi
    rw [hlast] at hstands hholds hclear hstop
    exact ⟨_, hgrows i hstands hstop hholds hclear, he.graft hs hp hi hstands,
      he.advances_graft hs hp hi hstands⟩

/-- The steps of a call are followed by good states. -/
theorem State.Grows.steps {s s' : State} {oldTree : Option Tree}
    (hs : strict → Settled (.ofDocument d ranges)) (hold : ∀ t ∈ oldTree, Known strict d ranges t)
    (h : s.Grows strict d ranges e) (he : e.Good strict (.ofDocument d ranges))
    (hsteps : Steps (.ofDocument d ranges) oldTree s s') :
    ∃ e', s'.Grows strict d ranges e' ∧ e'.Good strict (.ofDocument d ranges) := by
  induction hsteps with
  | refl => exact ⟨e, h, he⟩
  | tail _ hl ih =>
    obtain ⟨e₁, h₁, he₁⟩ := ih
    obtain ⟨e₂, h₂, he₂, -⟩ := h₁.leads hs hold he₁ hl
    exact ⟨e₂, h₂, he₂⟩

/-- Where a call finishes, the call that follows it does, with all tokens of the document. -/
theorem State.Grows.finished {s : State} {oldTree : Option Tree} {items : List Item}
    (h : s.Grows strict d ranges e) (he : e.Good strict (.ofDocument d ranges))
    (hf : step (.ofDocument d ranges) oldTree s = .finished items) :
    ∃ items', step (.ofDocument d ranges) none e = .finished items' ∧
      GrowsAll strict d ranges 0 items items' ∧
      (∃ blanks, Covers (Source.ofDocument d ranges).chars (tokensOf items') blanks ∧
        AllBlank blanks) ∧
      ∀ t ∈ tokensOf items', t.lookahead =
        Lexer.widthAhead ((Source.ofDocument d ranges).charsFrom t.stop) := by
  obtain ⟨hp, hb, rfl⟩ := of_finished hf
  have hb' : e.draft.blocks = [] := by
    have hempty := h.draft.isEmpty_blocks
    rw [hb] at hempty
    exact List.isEmpty_iff.1 hempty.symm
  rw [h.pending] at hp
  have hfinished := finished_of_nil (.ofDocument d ranges) none hp hb'
  obtain ⟨blanks, hc, hblank⟩ := he.covers
  refine ⟨_, hfinished, ?_, ⟨blanks, ?_, hblank⟩, ?_⟩
  · have hparts := h.here.parts
    rw [State.blocks_here, hb'] at hparts
    exact hparts
  · rw [tokens_finished hfinished]
    exact hc
  · rw [tokens_finished hfinished]
    exact he.ahead

end

end Reparse.C
