import Reparse.Proofs.Runs

/-!
# Drafts

What a document is made of while it is read. Every part that holds no error is a comment or of the
category that its place asks for (`Draft.Sound`), and a step without an old tree keeps that
(`Draft.Sound.leads`). The other way round, the steps of the parser read every derivation
(`steps_statements`, `steps_document`), so that a document is read without an error exactly if the
kinds of its tokens are a sentence of the grammar.
-/

namespace Reparse.C

open Item Shape

/-! ## What is read is sound -/

/-- A part of a document at a place that asks for a category: a comment, or an item of that
category unless it holds an error. -/
def Item.Fits (c : Category) (i : Item) : Prop :=
  (∃ t : Token, i = .token none t ∧ t.isComment = true) ∨
    (i.isComment = false ∧ (i.hasError = false → i.Is c))

/-- The parts of the innermost open block, newest first, and of the blocks around it, each fit. A
function body is opened only at the top of a document. -/
def PartsFit : List Block → List Item → Prop
  | [], parts => ∀ i ∈ parts, i.Fits .topLevel
  | b :: outer, parts =>
    (∃ (newer : List Item) (brace : Token), parts = newer ++ [Item.token none brace] ∧
      brace.kind = .leftBrace ∧ ∀ i ∈ newer, i.Fits .statement) ∧
    (∀ head ∈ b.definition, hasErrorOf head = false → IsHead head) ∧
    (b.definition.isSome → outer = []) ∧ PartsFit outer b.outer

/-- A draft whose parts all fit. -/
def Draft.Sound (d : Draft) : Prop := PartsFit d.blocks d.parts

/-- The category that a draft asks for next. -/
def Draft.category (d : Draft) : Category := if d.blocks.isEmpty then .topLevel else .statement

/-- The empty draft is sound. -/
lemma Draft.Sound.empty : Draft.empty.Sound := fun _ h => by cases h

/-- Parts that fit may be put after parts that fit. -/
lemma PartsFit.append {blocks parts} {is : List Item} (h : PartsFit blocks parts)
    (hi : ∀ i ∈ is, i.Fits (if blocks.isEmpty then .topLevel else .statement)) :
    PartsFit blocks (is ++ parts) := by
  cases blocks with
  | nil =>
    intro i hm
    rcases List.mem_append.1 hm with hm | hm
    · exact hi i hm
    · exact h i hm
  | cons b outer =>
    obtain ⟨⟨newer, brace, rfl, hb, hn⟩, hrest⟩ := h
    refine ⟨⟨is ++ newer, brace, by rw [List.append_assoc], hb, fun i hm => ?_⟩, hrest⟩
    rcases List.mem_append.1 hm with hm | hm
    · exact hi i hm
    · exact hn i hm

/-- Items that fit may be added to a sound draft. -/
lemma Draft.Sound.add {d : Draft} {is : List Item} (h : d.Sound)
    (hi : ∀ i ∈ is, i.Fits d.category) : (d.add is).Sound :=
  PartsFit.append h fun i hm => hi i (List.mem_reverse.1 hm)

/-- Comments fit everywhere. -/
lemma Item.AllComments.fits {is c} (h : AllComments is) : ∀ i ∈ is, i.Fits c :=
  fun i hm => .inl (h i hm)

/-- A draft stays sound with the comments after it. -/
lemma Draft.Sound.here {s : State} (h : s.draft.Sound) : s.here.Sound :=
  Draft.Sound.add h (allComments_comments s.tokens).fits

/-- A draft stays sound with a sound piece after it. -/
lemma Draft.Sound.place {d : Draft} {p : Piece} (h : d.Sound) (hp : p.Sound d.category) :
    (d.place p).Sound := by
  cases p with
  | whole item =>
    refine Draft.Sound.add h fun i hm => ?_
    obtain rfl := List.mem_singleton.1 hm
    exact .inr hp
  | opened definition brace =>
    obtain ⟨hb, hd, hh⟩ := hp
    refine ⟨⟨[], brace, rfl, hb, fun i hm => by cases hm⟩, hh, fun hs => ?_, h⟩
    have hc := hd hs
    unfold Draft.category at hc
    split at hc
    · exact List.isEmpty_iff.1 ‹_›
    · cases hc

/-- Parts that fit, without an error, spell what their shapes can be put together to. -/
lemma spells_parts {c} {D : List Shape → Prop} (hnil : D [])
    (hcons : ∀ s ss, Derives c [s] → D ss → D (s :: ss)) {is : List Item} (rest : List Token)
    (h : ∀ i ∈ is, i.Fits c) (he : hasErrorOf is = false) :
    ∃ ss, D ss ∧ Reading.Spells (is, rest) ss := by
  induction is with
  | nil => exact ⟨[], hnil, AllComments.nil.spells rest⟩
  | cons i is ih =>
    simp only [hasErrorOf, Bool.or_eq_false_iff] at he
    obtain ⟨ss, hd, hs⟩ := ih (fun j hj => h j (List.mem_cons_of_mem _ hj)) he.2
    have hk : Reading.Keeps (tokensOf is ++ rest) (is, rest) := rfl
    rcases h i (List.mem_cons_self ..) with ⟨t, rfl, ht⟩ | ⟨-, hi⟩
    · have hc : AllComments [.token none t] := fun j hj => ⟨t, List.mem_singleton.1 hj, ht⟩
      exact ⟨ss, hd, (hc.spells _).append hs hk⟩
    · have his := hi he.1
      obtain ⟨s, hsh, hds⟩ := his.exists_shape
      have hall := (his.spells (tokensOf is ++ rest)).append hs hk
      rw [hsh] at hall
      exact ⟨s :: ss, hcons s ss hds hd, hall⟩

/-- The node of a block whose parts fit, if it holds no error. -/
lemma is_compound {newer : List Item} {brace : Token} {ts} (hb : brace.kind = .leftBrace)
    (hn : ∀ i ∈ newer, i.Fits .statement)
    (he : hasErrorOf ((newer ++ [Item.token none brace]).reverse ++
      (expect .rightBrace none ts).1) = false) :
    ∃ ss, Derives .statements ss ∧ (Item.node none .compoundStatement
      ((newer ++ [Item.token none brace]).reverse ++ (expect .rightBrace none ts).1)).Is .statement ∧
      shapesOf ((newer ++ [Item.token none brace]).reverse ++ (expect .rightBrace none ts).1) =
        .leaf none .leftBrace :: (ss ++ [Shape.leaf none .rightBrace]) := by
  have hbc : brace.isComment = false := by simp [Token.isComment, hb]
  simp only [List.reverse_append, List.reverse_singleton, List.cons_append, hasErrorOf,
    hasErrorOf_append, Bool.or_eq_false_iff] at he ⊢
  obtain ⟨ss, hds, hss⟩ := spells_parts Derives.done (fun _ _ => Derives.next) ts
    (fun i hm => hn i (List.mem_reverse.1 hm)) he.2.1.2
  have hopen := (spells_token none hbc (tokensOf newer.reverse ++ ts)).append hss rfl
  rw [hb] at hopen
  obtain ⟨ks, hks⟩ := kinds_of_expect he.2.2
  have hall := hopen.append (spells_take none hks) (keeps_take none ts)
  refine ⟨ss, hds, is_closed hopen hbc he.2.2 (.compound hds) (by decide), ?_⟩
  rw [expect_of_kinds none hks]
  exact hall.shapes

/-- A function definition is one of the grammar if its head is and its body is a block. -/
lemma is_functionDefinition {head parts : List Item} {body} (hh : IsHead head)
    (hd : Derives .statements body)
    (hi : (Item.node none .compoundStatement parts).Is .statement)
    (hs : shapesOf parts = .leaf none .leftBrace :: (body ++ [Shape.leaf none .rightBrace])) :
    (Item.node none .functionDefinition
      (head ++ [Item.node (some .body) .compoundStatement parts])).Is .topLevel := by
  obtain ⟨ps, hps, hshead⟩ := hh.shapes
  obtain ⟨a, m, rfl⟩ : ∃ a m, head = a :: m := by
    cases head with
    | nil => cases hshead
    | cons a m => exact ⟨a, m, rfl⟩
  have htidy := hi.tidy.under hi.isComment .body
  refine Is.node (m := m) (.definition hps hd) ?_
    (hh.tidy.append ⟨htidy, trivial, fun _ => rfl⟩ fun _ => rfl) rfl hh.start
    (hi.ends_under .body) (by decide)
  rw [shapesOf_append, hshead]
  simp [shapesOf, Item.shapes, hs, functionShape]

/-- A closed block fits where it was opened. -/
lemma fits_closedBlock {b : Block} {newer : List Item} {brace : Token} (ts : List Token)
    (hb : brace.kind = .leftBrace) (hn : ∀ i ∈ newer, i.Fits .statement)
    (hd : ∀ head ∈ b.definition, hasErrorOf head = false → IsHead head) :
    (Draft.closedBlock b ((newer ++ [Item.token none brace]).reverse ++
      (expect .rightBrace none ts).1)).Fits
      (if b.definition.isSome then .topLevel else .statement) := by
  refine .inr ⟨?_, fun he => ?_⟩
  · unfold Draft.closedBlock
    split <;> rfl
  · unfold Draft.closedBlock at he ⊢
    split at he
    · rename_i hdef
      simp only [hdef]
      obtain ⟨ss, -, his, -⟩ := is_compound hb hn (by simpa [hasError] using he)
      exact his
    · rename_i head hdef
      simp only [hdef]
      simp only [hasError, hasErrorOf, hasErrorOf_append, Bool.or_eq_false_iff] at he
      obtain ⟨ss, hds, his, hsh⟩ := is_compound hb hn
        (by rw [hasErrorOf_append, he.2.2.1.2.1, he.2.2.1.2.2]; rfl)
      exact is_functionDefinition (hd head hdef he.2.1) hds his hsh

/-- A piece that is read where a draft stands is sound there. -/
lemma Piece.sound_of_read {draft : Draft} {t : Token} {rest rest' : List Token} {piece : Piece}
    (htc : t.isComment = false)
    (hr : (if draft.blocks.isEmpty then topLevel t rest else statement t rest) = (piece, rest')) :
    piece.Sound draft.category := by
  unfold Draft.category
  split at hr
  · rw [if_pos ‹_›, ← show (topLevel t rest).1 = piece by rw [hr]]
    exact sound_topLevel rest htc
  · rw [if_neg ‹_›, ← show (statement t rest).1 = piece by rw [hr]]
    exact sound_statement rest htc

/-- Without an old tree, a step keeps a draft sound. -/
theorem Draft.Sound.leads {source s s'} (h : s.draft.Sound) (hl : Leads source none s s') :
    s'.draft.Sound := by
  have hh := h.here
  cases hl.moves with
  | @closes b outer hb _ =>
    have hh' : PartsFit (b :: outer) s.here.parts := by
      rw [← hb]
      exact hh
    obtain ⟨⟨newer, brace, hparts, hbrace, hn⟩, hd, ho, hrest⟩ := hh'
    have hf := fits_closedBlock s.pending hbrace hn hd
    rw [← hparts] at hf
    show PartsFit outer (Draft.closedBlock b (s.here.parts.reverse ++
      (expect .rightBrace none s.pending).1) :: b.outer)
    refine @PartsFit.append _ _ [_] hrest fun i hm => ?_
    obtain rfl := List.mem_singleton.1 hm
    cases hdef : b.definition with
    | none =>
      rw [hdef] at hf
      cases outer with
      | nil => exact hf.imp id fun h => ⟨h.1, fun he => (h.2 he).loose⟩
      | cons => exact hf
    | some head =>
      rw [hdef] at hf
      rw [ho (by simp [hdef])]
      exact hf
  | reuses _ _ hr => simp [State.reusable?] at hr
  | @reads t rest piece rest' hp hk _ hr =>
    exact Draft.Sound.place hh (Piece.sound_of_read (State.isComment_of_pending hp) hr)

/-- Without an old tree, steps keep a draft sound. -/
lemma Draft.Sound.steps {source s s'} (h : s.draft.Sound) (hs : Steps source none s s') :
    s'.draft.Sound := by
  induction hs with
  | refl => exact h
  | tail _ hl ih => exact ih.leads hl

/-- What is left when a sound document finishes is a derivation, unless it holds an error. -/
lemma Draft.Sound.finished {source s parts} (h : s.draft.Sound)
    (hf : step source none s = .finished parts) (he : hasErrorOf parts = false) :
    ∃ ss, Derives .document ss ∧ Reading.Spells (parts, []) ss := by
  obtain ⟨-, hb, rfl⟩ := of_finished hf
  have hh : PartsFit [] s.here.parts := by
    rw [← hb]
    exact h.here
  exact spells_parts Derives.blank (fun _ _ => Derives.further) []
    (fun i hm => hh i (List.mem_reverse.1 hm)) he

/-! ## What is derived is read -/

section

variable (source : Source)

/-- Without an old tree, a token that closes no block starts a piece. -/
lemma leads_reads {s : State} {t rest piece rest'} (hp : s.pending = t :: rest)
    (hk : s.draft.blocks ≠ [] → t.kind ≠ .rightBrace)
    (hr : (if s.draft.blocks.isEmpty then topLevel t rest else statement t rest) =
      (piece, rest')) :
    Leads source none s ⟨(s.here.place piece).after (taken s.pending rest'), rest'⟩ := by
  have ha : ahead? s.tokens = some t.kind := by
    rw [show ahead? s.tokens = s.pending.head?.map (·.kind) from rfl, hp]
    rfl
  rcases step_cases source none s with ⟨-, hp', -⟩ | ⟨checks, s', hn, hm⟩
  · rw [hp] at hp'
    cases hp'
  · cases hm with
    | closes hb hk' => exact absurd (hk' _ ha) (hk (by rw [hb]; exact List.cons_ne_nil _ _))
    | reuses _ _ hr => simp [State.reusable?] at hr
    | reads hp' _ _ hr' =>
      obtain ⟨rfl, rfl⟩ := List.cons.inj (hp.symm.trans hp')
      obtain ⟨rfl, rfl⟩ := Prod.mk.inj (hr.symm.trans hr')
      exact ⟨checks, hn⟩

/-- A closing brace closes the innermost open block. -/
lemma leads_closes {s : State} {b outer ks} (hb : s.draft.blocks = b :: outer)
    (hk : kinds s.tokens = .rightBrace :: ks) :
    ∃ s' closing, Leads source none s s' ∧ s'.draft.blocks = outer ∧
      s'.draft.parts = Draft.closedBlock b (s.here.parts.reverse ++ closing) :: b.outer ∧
      shapesOf closing = [.leaf none .rightBrace] ∧ hasErrorOf closing = false ∧
      kinds s'.tokens = ks := by
  have hpending : kinds s.pending = .rightBrace :: ks := (kinds_comments s.tokens).trans hk
  have hy := yields_expect none hpending (by decide)
  rcases step_cases source none s with ⟨-, -, hb'⟩ | ⟨checks, s', hn, hm⟩
  · rw [hb] at hb'
    cases hb'
  · have hnot : ∀ t rest, s.pending = t :: rest →
        (s.draft.blocks ≠ [] → t.kind ≠ .rightBrace) → False := by
      intro t rest hp hne
      have ht : t.isComment = false := State.isComment_of_pending hp
      rw [hp, kinds_cons ht] at hpending
      exact hne (by simp [hb]) (List.cons.inj hpending).1
    cases hm with
    | closes hb' _ =>
      obtain ⟨rfl, rfl⟩ := List.cons.inj (hb.symm.trans hb')
      exact ⟨_, _, ⟨checks, hn⟩, rfl, rfl, hy.shapes, hy.clean, hy.rest⟩
    | reuses hp hne _ => exact (hnot _ _ hp hne).elim
    | reads hp hne _ _ => exact (hnot _ _ hp hne).elim

/-- Whether steps from `s` read the shapes `ss`, without an error, into the innermost open block
and leave tokens of the kinds `ks`. -/
def StepsRead (source : Source) (s : State) (ss : List Shape) (ks : List Terminal) : Prop :=
  ∃ s' is, Steps source none s s' ∧ s'.draft.blocks = s.draft.blocks ∧
    s'.draft.parts = is.reverse ++ s.draft.parts ∧ shapesOf is = ss ∧ hasErrorOf is = false ∧
    kinds s'.tokens = ks

/-- What is read by steps may be followed by what is read after them. -/
lemma StepsRead.append {s ss ss' ks ks'} (h : StepsRead source s ss ks)
    (h' : ∀ s', s'.draft.blocks = s.draft.blocks → kinds s'.tokens = ks →
      StepsRead source s' ss' ks') : StepsRead source s (ss ++ ss') ks' := by
  obtain ⟨s', is, hs, hb, hp, hsh, he, hk⟩ := h
  obtain ⟨s'', is', hs', hb', hp', hsh', he', hk'⟩ := h' s' hb hk
  refine ⟨s'', is ++ is', hs.trans hs', hb'.trans hb, by rw [hp', hp]; simp, ?_, ?_, hk'⟩
  · rw [shapesOf_append, hsh, hsh']
  · rw [hasErrorOf_append, he, he']
    rfl

/-- What is pending starts with the token that is due. -/
lemma State.pending_of_kinds {s : State} {k ks} (h : kinds s.tokens = k :: ks) :
    ∃ t rest, s.pending = t :: rest ∧ t.isComment = false ∧ t.kind = k ∧ kinds rest = ks := by
  obtain ⟨before, t, rest, hc, -, ht, hk, hr, -⟩ := comments_of_kinds h
  exact ⟨t, rest, by rw [State.pending, hc], ht, hk, hr⟩

/-- A whole piece is read in one step. -/
lemma stepsRead_whole {s : State} {t rest sh ks} (hp : s.pending = t :: rest)
    (hk : t.kind ≠ .rightBrace)
    (hy : (if s.draft.blocks.isEmpty then topLevel t rest else statement t rest).1.Yields sh ∧
      kinds (if s.draft.blocks.isEmpty then topLevel t rest else statement t rest).2 = ks) :
    StepsRead source s [sh] ks := by
  generalize hq : (if s.draft.blocks.isEmpty then topLevel t rest else statement t rest) = q at hy
  obtain ⟨piece, rest'⟩ := q
  obtain ⟨⟨item, hi, hs, he⟩, hr⟩ := hy
  dsimp only at hi hr
  subst hi
  have hl := leads_reads source hp (fun _ => hk) hq
  refine ⟨_, (comments s.tokens).1 ++ [item], .single hl, ?_, ?_, ?_, ?_, hr⟩
  · rfl
  · simp [Draft.place, Draft.add]
  · simp [(allComments_comments s.tokens).shapesOf, shapesOf, hs]
  · simp [(allComments_comments s.tokens).hasErrorOf, hasErrorOf, he]

/-- A block that is opened is read up to its closing brace and closed. -/
lemma steps_block {s s₁ : State} {definition outer brace body ks} (hl : Leads source none s s₁)
    (hb : s₁.draft.blocks = ⟨definition, outer⟩ :: s.draft.blocks)
    (hp : s₁.draft.parts = [.token none brace]) (hbrace : brace.kind = .leftBrace)
    (hbody : StepsRead source s₁ body (.rightBrace :: ks)) :
    ∃ s' parts, Steps source none s s' ∧ s'.draft.blocks = s.draft.blocks ∧
      s'.draft.parts = Draft.closedBlock ⟨definition, outer⟩ parts :: outer ∧
      shapesOf parts = .leaf none .leftBrace :: (body ++ [Shape.leaf none .rightBrace]) ∧
      hasErrorOf parts = false ∧ kinds s'.tokens = ks := by
  obtain ⟨s₂, is, hs, hb₂, hp₂, hsh, he, hk₂⟩ := hbody
  obtain ⟨s₃, closing, hl₃, hb₃, hp₃, hsc, hec, hk₃⟩ := leads_closes source
    (hb₂.trans hb) hk₂
  have hbc : brace.isComment = false := by simp [Token.isComment, hbrace]
  have hc := allComments_comments s₂.tokens
  refine ⟨s₃, _, .head hl (hs.tail hl₃), hb₃, hp₃, ?_, ?_, hk₃⟩
  · simp [hp₂, hp, hc.shapesOf, hsh, hsc, shapesOf, Item.shapes, hbc, hbrace]
  · simp [hp₂, hp, hc.hasErrorOf, he, hec, hasErrorOf, hasError, hbrace]

/-- A statement that is no block is read in one step. -/
lemma stepsRead_statement {sh} (hd : Derives .statement [sh]) (hc : sh.isCompound = false) (s : State)
    (ks : List Terminal) (hts : kinds s.tokens = leavesOf [sh] ++ ks) :
    StepsRead source s [sh] ks := by
  obtain ⟨k, ks', hk, hf⟩ := hd.starts (List.cons_ne_nil _ _)
  obtain ⟨t, rest, hp, ht, hkind, hr⟩ := @State.pending_of_kinds s k (ks' ++ ks)
    (by rw [hts, hk]; rfl)
  have hy := @yields_statement sh ks rest t hd hc ht (by
    rw [kinds_cons ht, hkind, hr, ← List.cons_append, ← hk]
    simp [leavesOf])
  refine stepsRead_whole source hp ?_ ?_
  · rw [hkind]
    rintro rfl
    exact absurd hf (by decide)
  · split
    · exact hy.2
    · exact hy.1

/-- A block is read if what it holds is. -/
lemma stepsRead_compound {body ks} {s : State}
    (hbody : ∀ s' : State, kinds s'.tokens = leavesOf body ++ .rightBrace :: ks →
      StepsRead source s' body (.rightBrace :: ks))
    (hts : kinds s.tokens = .leftBrace :: (leavesOf body ++ .rightBrace :: ks)) :
    StepsRead source s
      [.node none .compoundStatement (.leaf none .leftBrace :: (body ++ [Shape.leaf none .rightBrace]))]
      ks := by
  obtain ⟨t, rest, hp, ht, hkind, hr⟩ := State.pending_of_kinds hts
  have hopened : (if s.draft.blocks.isEmpty then topLevel t rest else statement t rest) =
      (.opened none t, rest) := by
    rw [topLevel_of_ne (by rw [hkind]; decide), ite_self]
    simp only [statement, hkind]
  have hl := leads_reads source hp (fun _ => by rw [hkind]; decide) hopened
  obtain ⟨s', parts, hs, hb, hparts, hsh, he, hk⟩ := steps_block source hl rfl rfl hkind
    (hbody _ hr)
  refine ⟨s', (comments s.tokens).1 ++ [Item.node none .compoundStatement parts], hs, hb, ?_, ?_, ?_, hk⟩
  · rw [hparts]
    simp [Draft.closedBlock]
  · simp [(allComments_comments s.tokens).shapesOf, shapesOf, Item.shapes, hsh]
  · simp [(allComments_comments s.tokens).hasErrorOf, hasErrorOf, hasError, he]

/-- A function definition at the top of a document is read if what its body holds is. -/
lemma stepsRead_definition {ps body ks} {s : State} (hps : Derives (.list .parameter) ps)
    (hbody : ∀ s' : State, kinds s'.tokens = leavesOf body ++ .rightBrace :: ks →
      StepsRead source s' body (.rightBrace :: ks))
    (hblocks : s.draft.blocks = [])
    (hts : kinds s.tokens = .primitiveType :: ((functionShape ps).leaves ++
      .leftBrace :: (leavesOf body ++ .rightBrace :: ks))) :
    StepsRead source s
      [.node none .functionDefinition [.leaf (some .type) .primitiveType, functionShape ps,
        .node (some .body) .compoundStatement
          (.leaf none .leftBrace :: (body ++ [Shape.leaf none .rightBrace]))]] ks := by
  obtain ⟨t, rest, hp, ht, hkind, hr⟩ := State.pending_of_kinds hts
  obtain ⟨head, brace, rest', htop, hbrace, hshead, hehead, hrest⟩ :=
    opened_of_definition hps hkind hr
  have hopened : (if s.draft.blocks.isEmpty then topLevel t rest else statement t rest) =
      (.opened (some head) brace, rest') := by
    rw [hblocks]
    exact htop
  have hl := leads_reads source hp (fun _ => by rw [hkind]; decide) hopened
  obtain ⟨s', parts, hs, hb, hparts, hsh, he, hk⟩ := steps_block source hl rfl rfl hbrace
    (hbody _ hrest)
  refine ⟨s', (comments s.tokens).1 ++ [Item.node none .functionDefinition
    (head ++ [Item.node (some .body) .compoundStatement parts])], hs, hb, ?_, ?_, ?_, hk⟩
  · rw [hparts]
    simp [Draft.closedBlock]
  · simp [(allComments_comments s.tokens).shapesOf, shapesOf, Item.shapes, hshead, hsh,
      functionShape]
  · simp [(allComments_comments s.tokens).hasErrorOf, hasErrorOf, hasError, hehead, he]

/-- The steps of the parser read every derivation of a category of statements: in any block, or at
the top of a document where the category asks for it. -/
lemma Derives.stepsRead {c ss} (h : Derives c ss) (s : State) (ks : List Terminal)
    (hts : kinds s.tokens = leavesOf ss ++ ks) :
    match c with
    | .statement | .statements => StepsRead source s ss ks
    | .topLevel | .document => s.draft.blocks = [] → StepsRead source s ss ks
    | _ => True := by
  induction h generalizing s ks with
  | declaration hd => exact stepsRead_statement source (.declaration hd) rfl s ks hts
  | emptyReturn => exact stepsRead_statement source .emptyReturn rfl s ks hts
  | «return» he => exact stepsRead_statement source (.return he) rfl s ks hts
  | emptyStatement => exact stepsRead_statement source .emptyStatement rfl s ks hts
  | evaluation he => exact stepsRead_statement source (.evaluation he) rfl s ks hts
  | compound _ ih =>
    exact stepsRead_compound source (fun s' => ih s' _) (by simpa [leavesOf, leaves] using hts)
  | done => exact ⟨s, [], .refl, rfl, rfl, rfl, rfl, by simpa [leavesOf] using hts⟩
  | @next sh rest _ _ ih ihrest =>
    have h1 := ih s (leavesOf rest ++ ks) (by simpa [leavesOf] using hts)
    exact @StepsRead.append source _ [sh] _ _ _ h1 fun s' _ hk => ihrest s' ks hk
  | loose _ ih => exact fun _ => ih s ks hts
  | definition hps _ _ ih =>
    exact fun hblocks => stepsRead_definition source hps (fun s' => ih s' _) hblocks
      (by simpa [leavesOf, leaves, functionShape] using hts)
  | blank => exact fun _ => ⟨s, [], .refl, rfl, rfl, rfl, rfl, by simpa [leavesOf] using hts⟩
  | @further sh rest _ _ ih ihrest =>
    intro hblocks
    have h1 := ih s (leavesOf rest ++ ks) (by simpa [leavesOf] using hts) hblocks
    exact @StepsRead.append source _ [sh] _ _ _ h1 fun s' hb hk => ihrest s' ks hk (hb.trans hblocks)
  | _ => trivial

/-- A document whose tokens have the kinds of a sentence is read as its derivation. -/
theorem finished_of_derives {ss} (s : State) (h : Derives .document ss)
    (hts : kinds s.tokens = leavesOf ss) (hb : s.draft.blocks = []) (hp : s.draft.parts = []) :
    ∃ s' parts, Steps source none s s' ∧ step source none s' = .finished parts ∧
      shapesOf parts = ss ∧ hasErrorOf parts = false := by
  obtain ⟨s', is, hs, hb', hp', hsh, he, hk⟩ :=
    h.stepsRead source s [] (by simpa using hts) hb
  have hpending : s'.pending = [] := by
    have hk' : kinds s'.pending = [] := (kinds_comments s'.tokens).trans hk
    cases hq : s'.pending with
    | nil => rfl
    | cons t rest =>
      have ht : t.isComment = false := State.isComment_of_pending hq
      rw [hq, kinds_cons ht] at hk'
      cases hk'
  have hc := allComments_comments s'.tokens
  refine ⟨s', _, hs, finished_of_nil source none hpending (hb'.trans hb), ?_, ?_⟩
  · simp [hp', hp, hc.shapesOf, hsh]
  · simp [hp', hp, hc.hasErrorOf, he]

/-- The kinds of some tokens are the sentence of at most one derivation: both would be what the
same steps read. -/
theorem Derives.unique {ss ss' : List Shape} {ts : List Token} (h : Derives .document ss)
    (h' : Derives .document ss') (hts : kinds ts = leavesOf ss) (hts' : kinds ts = leavesOf ss') :
    ss = ss' := by
  let s : State := ⟨.empty, ts⟩
  let source : Source := ⟨⟨[], .utf8⟩, [], [], []⟩
  obtain ⟨s₁, parts₁, hs₁, hf₁, rfl, -⟩ :=
    finished_of_derives source s h hts rfl rfl
  obtain ⟨s₂, parts₂, hs₂, hf₂, rfl, -⟩ :=
    finished_of_derives source s h' hts' rfl rfl
  obtain rfl := finished_unique hs₁ hs₂ hf₁ hf₂
  rw [hf₁] at hf₂
  rw [Step.finished.inj hf₂]

end

end Reparse.C
