import Reparse.Proofs.Transcripts

/-!
# Progress

Every step of a call leads on: to a later byte, or to the same byte with fewer open blocks. What is
left of a document counts its characters twice and its open blocks once (`State.left`), and it is
never more than twice the number of all characters. So a call that is halted leaves a checkpoint
after the one that it went on from, and calls that are repeated give a tree before they are more than
twice the number of characters and two (`sliced_completes`).
-/

namespace Reparse.C

open Item

/-! ## What is left -/

/-- How much is left to do in a state: two for every included character that is still to be read, and
one for every open block. -/
def State.left (source : Source) (s : State) : Nat :=
  2 * source.chars.countP (fun c => s.byte source ≤ c.byte) + s.draft.blocks.length

/-- Whether a checkpoint comes before another one: it stands at an earlier byte, or at the same byte
with more open blocks. -/
def Checkpoint.Before (a b : Checkpoint) : Prop :=
  a.byte < b.byte ∨ a.byte = b.byte ∧ b.draft.blocks.length < a.draft.blocks.length

/-- Checkpoints come before each other along a chain. -/
lemma Checkpoint.Before.trans {a b c : Checkpoint} (h : a.Before b) (h' : b.Before c) :
    a.Before c := by
  unfold Before at *
  omega

/-- A checkpoint with the same draft at an earlier byte comes before those after it. -/
lemma Checkpoint.Before.of_le {a b c : Checkpoint} (h : b.Before c) (hle : a.byte ≤ b.byte)
    (hd : a.draft = b.draft) : a.Before c := by
  unfold Before at *
  rw [hd]
  omega

/-- Fewer characters start at a later byte if one of them starts in between. -/
lemma countP_byte_lt {cs : List SourceChar} {c : SourceChar} {x y : Nat} (hc : c ∈ cs)
    (hx : x ≤ c.byte) (hy : c.byte < y) :
    cs.countP (fun c => y ≤ c.byte) < cs.countP fun c => x ≤ c.byte := by
  obtain ⟨a, b, rfl⟩ := List.append_of_mem hc
  have hmono : ∀ ds : List SourceChar,
      ds.countP (fun c => y ≤ c.byte) ≤ ds.countP fun c => x ≤ c.byte := fun ds =>
    List.countP_mono_left fun d _ hd => by
      simp only [decide_eq_true_eq] at hd ⊢
      omega
  have ha := hmono a
  have hb := hmono b
  rw [List.countP_append, List.countP_append, List.countP_cons_of_neg (by simpa using hy),
    List.countP_cons_of_pos (by simpa using hx)]
  omega

/-- The characters from a byte on are no more than those after an earlier one. -/
lemma countP_le_charsFrom (source : Source) {x y : Nat} (h : x ≤ y) :
    source.chars.countP (fun c => y ≤ c.byte) ≤ (source.charsFrom x).length := by
  obtain ⟨u, hu, hlt⟩ := source.exists_charsFrom x
  have hnone : u.countP (fun c => y ≤ c.byte) = 0 := List.countP_eq_zero.2 fun c hc => by
    have hc := hlt c hc
    simp only [decide_eq_true_eq]
    omega
  rw [hu, List.countP_append, hnone, Nat.zero_add]
  exact List.countP_le_length

/-- Every token has a character. -/
lemma Covers.length_le {cs rest : List SourceChar} {ts : List Token} (h : Covers cs ts rest) :
    ts.length + rest.length ≤ cs.length := by
  induction h with
  | nil => simp
  | cons _ hs _ ih =>
    have hpos := List.length_pos_iff.2 hs.ne_nil
    simp only [List.length_append, List.length_cons]
    omega

/-- The first token starts with a character. -/
lemma Covers.exists_head {cs rest : List SourceChar} {t : Token} {ts : List Token}
    (h : Covers cs (t :: ts) rest) : ∃ c ∈ cs, c.byte = t.start := by
  cases h with
  | @cons between piece cs _ _ _ _ hs _ =>
    obtain ⟨c, hc, hstart⟩ := Option.map_eq_some_iff.1 hs.start
    exact ⟨c, by simp [List.mem_of_mem_head? hc], hstart⟩

/-- Every open block has a brace. -/
lemma PartsFit.length_le : ∀ {blocks : List Block} {parts : List Item}, PartsFit blocks parts →
    blocks.length ≤ (Draft.tokensBefore blocks ++ tokensOf parts.reverse).length
  | [], _, _ => Nat.zero_le _
  | b :: outer, parts, ⟨⟨newer, brace, hparts, _, _⟩, _, _, hrest⟩ => by
    have ih := hrest.length_le
    have hbrace : tokensOf parts.reverse = brace :: tokensOf newer.reverse := by
      rw [hparts, List.reverse_append]
      rfl
    rw [hbrace]
    simp only [Draft.tokensBefore, List.length_append, List.length_cons] at ih ⊢
    omega

section

variable {strict : Prop} {d : Document} {ranges : List Span} {s s' e e' : State}

/-- A good state goes on inside the document. -/
lemma State.Good.byte_le (h : e.Good strict (.ofDocument d ranges)) :
    e.byte (.ofDocument d ranges) ≤ (Source.ofDocument d ranges).endOfInput := by
  have ho := Source.ordered_chars d ranges
  obtain ⟨blanks, hc, -⟩ := h.covers
  have horder := hc.inOrder ho (fun _ _ => Nat.zero_le _) (Nat.zero_le _)
    fun c hc => Source.stop_le_endOfInput ho hc
  rw [inOrder_append] at horder
  obtain ⟨-, htokens⟩ := horder
  unfold State.byte
  cases he : e.tokens with
  | nil => exact Nat.le_refl _
  | cons t rest =>
    rw [he] at htokens
    obtain ⟨-, hlt, htokens⟩ := htokens
    have hle := htokens.le
    show t.start ≤ _
    omega

/-- No state has more left than two for every character. -/
lemma State.Good.left_le (h : e.Good strict (.ofDocument d ranges)) :
    e.left (.ofDocument d ranges) ≤ 2 * (Source.ofDocument d ranges).chars.length := by
  have ho := Source.ordered_chars d ranges
  obtain ⟨blanks, hc, -⟩ := h.covers
  obtain ⟨mid, h1, -⟩ := hc.split
  have hblocks : e.draft.blocks.length ≤ e.draft.tokens.length := PartsFit.length_le h.sound
  have hlen := h1.length_le
  rw [← Source.charsFrom_zero] at h1
  obtain ⟨-, rfl⟩ := h1.parted (PartedAt.zero d)
  have hleft := countP_le_charsFrom (.ofDocument d ranges) h.endOf_le_byte
  have hcount : (Source.ofDocument d ranges).chars.countP
      (fun c => e.byte (.ofDocument d ranges) ≤ c.byte) ≤
      (Source.ofDocument d ranges).chars.length := List.countP_le_length
  unfold State.left
  omega

/-- What leads on leaves less to do. -/
lemma State.Advances.left_lt (h : e.Advances (.ofDocument d ranges) e')
    (he : e.Good strict (.ofDocument d ranges)) (he' : e'.Good strict (.ofDocument d ranges)) :
    e'.left (.ofDocument d ranges) < e.left (.ofDocument d ranges) := by
  unfold State.left
  rcases h with ⟨hlt, hblocks⟩ | ⟨hbyte, hblocks⟩
  · -- the token at the earlier byte starts with a character
    have hle := he'.byte_le
    obtain ⟨c, hc, hbyte⟩ : ∃ c ∈ (Source.ofDocument d ranges).chars,
        c.byte = e.byte (.ofDocument d ranges) := by
      obtain ⟨blanks, hc, -⟩ := he.covers
      cases ht : e.tokens with
      | nil =>
        have hend : e.byte (.ofDocument d ranges) = (Source.ofDocument d ranges).endOfInput := by
          rw [State.byte, ht]
          rfl
        omega
      | cons t rest =>
        rw [ht] at hc
        obtain ⟨mid, h1, h2⟩ := hc.split
        obtain ⟨u, hu⟩ := h1.suffix
        obtain ⟨first, hfirst, hstart⟩ := h2.exists_head
        refine ⟨first, ?_, ?_⟩
        · rw [hu]
          exact List.mem_append_right u hfirst
        · rw [hstart, State.byte, ht]
          rfl
    have hcount := countP_byte_lt hc (Nat.le_of_eq hbyte.symm) (by omega : c.byte <
      e'.byte (.ofDocument d ranges))
    omega
  · rw [hbyte]
    omega

/-! ## Calls -/

/-- Blocks that grow into others are as many. -/
lemma BlocksGrow.length_eq : ∀ {a b : List Block}, BlocksGrow strict d ranges a b →
    a.length = b.length
  | [], [], _ => rfl
  | _ :: _, _ :: _, ⟨_, _, _, h⟩ => congrArg Nat.succ h.length_eq
  | [], _ :: _, h => h.elim
  | _ :: _, [], h => h.elim

/-- A state has as much left as the good state that follows it. -/
lemma State.Grows.left_eq (h : s.Grows strict d ranges e) :
    s.byte (.ofDocument d ranges) = e.byte (.ofDocument d ranges) ∧
      s.draft.blocks.length = e.draft.blocks.length ∧
      s.left (.ofDocument d ranges) = e.left (.ofDocument d ranges) := by
  have hbyte : s.byte (.ofDocument d ranges) = e.byte (.ofDocument d ranges) := by
    rw [State.byte, State.byte, h.tokens]
  have hblocks := h.draft.blocks.length_eq
  refine ⟨hbyte, hblocks, ?_⟩
  rw [State.left, State.left, hbyte, hblocks]

/-- A step of a call leaves less to do, and leads to a later checkpoint. -/
lemma State.Grows.leads_before {oldTree : Option Tree}
    (hs : strict → Settled (.ofDocument d ranges)) (hold : ∀ t ∈ oldTree, Known strict d ranges t)
    (h : s.Grows strict d ranges e) (he : e.Good strict (.ofDocument d ranges))
    (hl : Leads (.ofDocument d ranges) oldTree s s') :
    s'.left (.ofDocument d ranges) < s.left (.ofDocument d ranges) ∧
      (s.checkpoint (.ofDocument d ranges)).Before (s'.checkpoint (.ofDocument d ranges)) := by
  obtain ⟨e', h', he', hadvances⟩ := h.leads hs hold he hl
  obtain ⟨hbyte, hblocks, hleft⟩ := h.left_eq
  obtain ⟨hbyte', hblocks', hleft'⟩ := h'.left_eq
  refine ⟨by rw [hleft, hleft']; exact hadvances.left_lt he he', ?_⟩
  show s.byte _ < s'.byte _ ∨
    s.byte _ = s'.byte _ ∧ s'.draft.blocks.length < s.draft.blocks.length
  rw [hbyte, hbyte', hblocks, hblocks']
  exact hadvances.imp (fun h => h.1) fun h => ⟨h.1.symm, h.2⟩

/-- The same of any number of steps, at least one. -/
lemma State.Grows.trans_before {oldTree : Option Tree}
    (hs : strict → Settled (.ofDocument d ranges)) (hold : ∀ t ∈ oldTree, Known strict d ranges t)
    (h : s.Grows strict d ranges e) (he : e.Good strict (.ofDocument d ranges))
    (hl : Relation.TransGen (Leads (.ofDocument d ranges) oldTree) s s') :
    s'.left (.ofDocument d ranges) < s.left (.ofDocument d ranges) ∧
      (s.checkpoint (.ofDocument d ranges)).Before (s'.checkpoint (.ofDocument d ranges)) := by
  induction hl with
  | single hl => exact h.leads_before hs hold he hl
  | tail hsteps hl ih =>
    obtain ⟨e₁, h₁, he₁⟩ := h.steps hs hold he hsteps.to_reflTransGen
    obtain ⟨hlt, hbefore⟩ := h₁.leads_before hs hold he₁ hl
    exact ⟨Nat.lt_trans hlt ih.1, ih.2.trans hbefore⟩

/-- What is read from a byte on starts at that byte or after it. -/
lemma le_start_tokensFrom {x : Nat} (hx : x ≤ (Source.ofDocument d ranges).endOfInput) :
    x ≤ ((tokensFrom (.ofDocument d ranges) x).head?.map (·.start)).getD
      (Source.ofDocument d ranges).endOfInput := by
  obtain ⟨blanks, hc, -⟩ : ∃ blanks, Covers ((Source.ofDocument d ranges).charsFrom x)
      (tokensFrom (.ofDocument d ranges) x) blanks ∧ AllBlank blanks := Lexer.covers_lexAll .plain _
  generalize tokensFrom (.ofDocument d ranges) x = ts at hc
  cases ts with
  | nil => exact hx
  | cons t rest =>
    obtain ⟨c, hc, hstart⟩ := hc.exists_head
    rw [show (List.head? (t :: rest)).map (·.start) = some t.start from rfl, Option.getD_some,
      ← hstart]
    exact Source.le_byte_of_mem_charsFrom (Source.ordered_chars d ranges) hc

/-- A call that goes on from the checkpoint of a good state does so at its byte or after it. -/
lemma State.Good.byte_le_restart (he : e.Good strict (.ofDocument d ranges)) :
    e.byte (.ofDocument d ranges) ≤
      (State.start (.ofDocument d ranges) (some (e.checkpoint (.ofDocument d ranges)))).byte
        (.ofDocument d ranges) :=
  le_start_tokensFrom he.byte_le

/-- A call that goes on from a checkpoint that is known does so at its byte or after it. -/
lemma Checkpoint.Good.byte_le_start {c : Checkpoint} (h : c.Good strict d ranges) :
    c.byte ≤ (State.start (.ofDocument d ranges) (some c)).byte (.ofDocument d ranges) := by
  obtain ⟨s, e, hg, he, rfl⟩ := h
  show s.byte _ ≤ ((tokensFrom _ (s.byte (.ofDocument d ranges))).head?.map (·.start)).getD _
  rw [hg.left_eq.1]
  exact he.byte_le_restart

/-- A call that goes on from the checkpoint of a state has no more left than that state. -/
lemma State.Grows.restart_left_le (h : s.Grows strict d ranges e)
    (he : e.Good strict (.ofDocument d ranges)) :
    (State.start (.ofDocument d ranges) (some (s.checkpoint (.ofDocument d ranges)))).left
      (.ofDocument d ranges) ≤ s.left (.ofDocument d ranges) := by
  have hbyte : s.byte (.ofDocument d ranges) ≤ (State.start (.ofDocument d ranges)
      (some (s.checkpoint (.ofDocument d ranges)))).byte (.ofDocument d ranges) :=
    Checkpoint.Good.byte_le_start ⟨s, e, h, he, rfl⟩
  have hcount : (Source.ofDocument d ranges).chars.countP (fun c => (State.start
      (.ofDocument d ranges) (some (s.checkpoint (.ofDocument d ranges)))).byte
        (.ofDocument d ranges) ≤ c.byte) ≤
      (Source.ofDocument d ranges).chars.countP fun c => s.byte (.ofDocument d ranges) ≤ c.byte :=
    List.countP_mono_left fun c _ hc => by
      simp only [decide_eq_true_eq] at hc ⊢
      omega
  have hblocks : (State.start (.ofDocument d ranges)
      (some (s.checkpoint (.ofDocument d ranges)))).draft.blocks = s.draft.blocks := rfl
  unfold State.left
  rw [hblocks]
  omega

end

/-! ## Calls that are repeated -/

section

variable {strict : Prop} {p q q' : Parser Checkpoint} {d : Document} {k : Nat} {oldTree : Option Tree}

/-- Whether `q` is what `p` has become after `k` calls in a row for `d` that were all cancelled.
Before each of them the timeout and the flag may have been set, and each may be given another old
tree that matches the document. -/
inductive Sliced (d : Document) (p : Parser Checkpoint) : Nat → Parser Checkpoint → Prop
  | zero : Sliced d p 0 p
  | succ {k q q' timeout flag oldTree outside generation reason} :
    Sliced d p k q → (∀ t ∈ oldTree, Matches False d t) →
    ((q.setTimeout timeout).setFlag flag).parse outside generation d oldTree =
      (.error (.error (.cancelled reason)), q') →
    Sliced d p (k + 1) q'

/-- A call gives a tree, or it is cancelled and leaves a checkpoint after the one that it went on from;
and if it is never told to stop, it gives a tree. -/
lemma Used.parse_cases (h : Used strict p) (hold : ∀ t ∈ oldTree, Matches strict d t)
    (hs : strict → Settled (.ofDocument d p.includedRanges)) (outside : Outside) (generation : Nat) :
    (∃ t, p.parse outside generation d oldTree = (.ok t, p.reset)) ∨
    ¬ NeverFires (p.probes outside) (.start p.timeout) ∧
    ∃ c reason, p.parse outside generation d oldTree = (.error (.error (.cancelled reason)),
        { p with suspended := some ⟨grammar, d, p.includedRanges, c⟩ }) ∧
      (State.start (.ofDocument d p.includedRanges) (some c)).left (.ofDocument d p.includedRanges) ≤
        2 * (Source.ofDocument d p.includedRanges).chars.length ∧
      ∀ c₀ ∈ p.suspended, p.continues language d c₀ = true → c₀.progress.Before c ∧
        (State.start (.ofDocument d p.includedRanges) (some c)).left
            (.ofDocument d p.includedRanges) <
          (startOf p d).left (.ofDocument d p.includedRanges) := by
  obtain ⟨hl, hpursues⟩ := h.pursues
  have hknown : ∀ t ∈ oldTree.filter (p.admits language), Known strict d p.includedRanges t :=
    known_filter fun t ht => (hold t ht).known
  obtain ⟨e, hg, he⟩ := hpursues.start hs
  have hmeasure : ∀ s₁ s₂, Steps (.ofDocument d p.includedRanges)
      (oldTree.filter (p.admits language)) (startOf p d) s₁ →
      Leads (.ofDocument d p.includedRanges) (oldTree.filter (p.admits language)) s₁ s₂ →
      s₂.left (.ofDocument d p.includedRanges) < s₁.left (.ofDocument d p.includedRanges) :=
    fun s₁ s₂ hsteps hleads => by
      obtain ⟨e₁, hg₁, he₁⟩ := hg.steps hs hknown he hsteps
      exact (hg₁.leads_before hs hknown he₁ hleads).1
  have hbound : (startOf p d).left (.ofDocument d p.includedRanges) <
      stepBound (.ofDocument d p.includedRanges) (startOf p d) + outside.patience := by
    have hleft := he.left_le
    rw [← hg.left_eq.2.2] at hleft
    simp only [stepBound]
    omega
  by_cases hn : NeverFires (p.probes outside) (.start p.timeout)
  · obtain ⟨s, parts, -, -, hr⟩ := exists_of_neverFires generation
      (p.task outside language d oldTree).progress.isNone
      (fun s => s.left (.ofDocument d p.includedRanges)) hmeasure hn hbound
    obtain ⟨t, ht, -⟩ := treeOf_eq (.ofDocument d p.includedRanges) generation parts
    rw [finish, ht] at hr
    exact .inl ⟨t, parse_of_complete hl hr⟩
  rcases parse_cases_of_measure outside generation d oldTree hl
      (fun s => s.left (.ofDocument d p.includedRanges)) hmeasure hbound with
    ⟨s, parts, t, -, -, -, hp⟩ | ⟨s, reason, hsteps, htrans, hp⟩
  · exact .inl ⟨t, hp⟩
  · obtain ⟨e', hg', he'⟩ := hg.steps hs hknown he hsteps
    have hleft := he'.left_le
    rw [← hg'.left_eq.2.2] at hleft
    have hrestart := hg'.restart_left_le he'
    refine .inr ⟨hn, _, reason, hp, Nat.le_trans hrestart hleft, fun c₀ hc₀ hcontinues => ?_⟩
    obtain ⟨hlt, hbefore⟩ := hg.trans_before hs hknown he (htrans ⟨c₀, hc₀, hcontinues⟩)
    refine ⟨?_, Nat.lt_of_le_of_lt hrestart hlt⟩
    -- the call started at the checkpoint or after it, with the same open blocks
    have hstart : startOf p d = State.start (.ofDocument d p.includedRanges) (some c₀.progress) := by
      rw [startOf, Option.mem_def.1 hc₀, Option.filter_some, if_pos hcontinues]
      rfl
    simp only [Parser.continues, Bool.and_eq_true, beq_iff_eq] at hcontinues
    have hgood := hpursues c₀ hc₀
    rw [hcontinues.1.2, hcontinues.2] at hgood
    have hle := (hgood hs).byte_le_start
    rw [hstart] at hbefore
    exact hbefore.of_le hle rfl

/-- After `k` calls that were cancelled, what is left is less by as much, but for the first call,
which may be halted before its first step. -/
lemma Sliced.left_add_le (h : Used False p) (hq : Sliced d p k q) :
    Used False q ∧ q.includedRanges = p.includedRanges ∧
      (0 < k → (∃ c ∈ q.suspended, q.continues language d c = true) ∧
        (startOf q d).left (.ofDocument d p.includedRanges) + k ≤
          2 * (Source.ofDocument d p.includedRanges).chars.length + 1) := by
  induction hq with
  | zero => exact ⟨h, rfl, fun hk => absurd hk (Nat.lt_irrefl 0)⟩
  | @succ k q q' timeout flag oldTree outside generation reason _ hold hcall ih =>
    obtain ⟨hused, hranges, hleft⟩ := ih
    have hset : Used False ((q.setTimeout timeout).setFlag flag) :=
      .set hused hused.pursues.1 (.inr rfl)
    refine ⟨.called hset hold hcall, ?_⟩
    rcases @Used.parse_cases _ _ d _ hset hold (fun hf => hf.elim) outside generation with
      ⟨t, hp⟩ | ⟨-, c, reason, hp, hle, hbefore⟩
    · rw [hp] at hcall
      cases hcall
    · rw [hp] at hcall
      obtain rfl := (Prod.mk.inj hcall).2
      refine ⟨hranges, fun _ => ⟨⟨_, rfl, ?_⟩, ?_⟩⟩
      · simp [Parser.continues, language]
      · rw [startOf_suspended, ← hranges]
        show (State.start (.ofDocument d q.includedRanges) (some c)).left _ + _ ≤ _
        have hle' : (State.start (.ofDocument d q.includedRanges) (some c)).left
            (.ofDocument d q.includedRanges) ≤
            2 * (Source.ofDocument d q.includedRanges).chars.length := hle
        rcases Nat.eq_zero_or_pos k with rfl | hk
        · omega
        · obtain ⟨⟨c₀, hc₀, hcontinues⟩, hleft⟩ := hleft hk
          have hlt : (State.start (.ofDocument d q.includedRanges) (some c)).left
              (.ofDocument d q.includedRanges) <
              (startOf q d).left (.ofDocument d q.includedRanges) := (hbefore c₀ hc₀ hcontinues).2
          rw [← hranges] at hleft
          omega

/-- Calls for a document that are repeated give a tree before they are more than twice the number of
included characters and two, and each that is cancelled instead leaves a checkpoint after the one that it
went on from. -/
lemma sliced_completes (h : Used False p) (hq : Sliced d p k q) :
    k ≤ 2 * (Source.ofDocument d p.includedRanges).chars.length + 1 ∧
      (0 < k → ∃ c ∈ q.suspended, q.continues language d c = true) ∧
      ∀ timeout flag outside generation oldTree, (∀ t ∈ oldTree, Matches False d t) →
        (∃ t q', ((q.setTimeout timeout).setFlag flag).parse outside generation d oldTree =
          (.ok t, q')) ∨
        ¬ NeverFires (((q.setTimeout timeout).setFlag flag).probes outside) (.start timeout) ∧
        ∃ reason q' c, ((q.setTimeout timeout).setFlag flag).parse outside generation d oldTree =
            (.error (.error (.cancelled reason)), q') ∧
          c ∈ q'.suspended ∧ q'.continues language d c = true ∧
          ∀ c₀ ∈ q.suspended, q.continues language d c₀ = true → c₀.progress.Before c.progress := by
  obtain ⟨hused, hranges, hleft⟩ := hq.left_add_le h
  refine ⟨?_, fun hk => (hleft hk).1, fun timeout flag outside generation oldTree hold => ?_⟩
  · rcases Nat.eq_zero_or_pos k with rfl | hk
    · exact Nat.zero_le _
    · have hle := (hleft hk).2
      omega
  · have hset : Used False ((q.setTimeout timeout).setFlag flag) :=
      .set hused hused.pursues.1 (.inr rfl)
    rcases @Used.parse_cases _ _ d _ hset hold (fun hf => hf.elim) outside generation with
      ⟨t, hp⟩ | ⟨hn, c, reason, hp, -, hbefore⟩
    · exact .inl ⟨t, _, hp⟩
    · refine .inr ⟨hn, reason, _, _, hp, rfl, ?_, fun c₀ hc₀ hcontinues =>
        (hbefore c₀ hc₀ hcontinues).1⟩
      simp [Parser.continues, language]

end

/-! ## Slices of calls that note events -/

/-- Whether a suspension comes before another one: it stands at an earlier byte, or at the same byte with
more open blocks. -/
def Suspension.Before (a b : Suspension) : Prop :=
  a.byte < b.byte ∨ a.byte = b.byte ∧ b.blocks.length < a.blocks.length

/-- What stands for a checkpoint has as many open blocks. -/
lemma Spells.length_blocks {x : Suspension} {c : Checkpoint} (h : Spells x c) :
    x.blocks.length = c.draft.blocks.length := by
  obtain ⟨front, inner, -, houtline, -⟩ := h.draws
  exact houtline.length_eq

/-- Suspensions follow one another as the checkpoints do for which they stand. -/
lemma Spells.before {x y : Suspension} {a b : Checkpoint} (h : Spells x a) (h' : Spells y b)
    (hbefore : a.Before b) : x.Before y := by
  rw [Suspension.Before, h.byte, h'.byte, h.length_blocks, h'.length_blocks]
  exact hbefore

section

variable {κ : Type} [DecidableEq κ] {fingerprint : Document → List Span → κ} {p q q' : Parser Suspension}
  {d : Document} {k : Nat}

/-- Whether `q` is what `p` has become after `k` calls in a row for `d` that note events and were all
cancelled. Before each of them the timeout and the flag may have been set, and each may be given another
old tree that matches the document. -/
inductive SlicedBy (fingerprint : Document → List Span → κ) (d : Document) (p : Parser Suspension) :
    Nat → Parser Suspension → Prop
  | zero : SlicedBy fingerprint d p 0 p
  | succ {k q q' timeout flag oldTree outside generation reason} :
    SlicedBy fingerprint d p k q → (∀ t ∈ oldTree, MatchesBy fingerprint d t) →
    Relies fingerprint ((q.setTimeout timeout).setFlag flag) outside generation d oldTree →
    ((q.setTimeout timeout).setFlag flag).parseBy fingerprint outside generation d oldTree =
      (.error (.error (.cancelled reason)), q') →
    SlicedBy fingerprint d p (k + 1) q'

/-- Setting the timeout and the flag keeps what a parser does. -/
lemma Renders.setBoth {p' : Parser Checkpoint} (h : Renders p p') (timeout : Nat) (flag : Option Nat) :
    Renders ((p.setTimeout timeout).setFlag flag) ((p'.setTimeout timeout).setFlag flag) :=
  ⟨h.noted, h.drafted, h.ranges, rfl, rfl, h.suspended⟩

/-- Calls that are cancelled in a row are so if their progress is a draft. -/
lemma SlicedBy.exists_sliced {p' : Parser Checkpoint} (hp : Renders p p')
    (h : SlicedBy fingerprint d p k q) : ∃ q', Renders q q' ∧ Sliced d p' k q' := by
  induction h with
  | zero => exact ⟨p', hp, .zero⟩
  | @succ k q q' timeout flag oldTree outside generation reason _ hold hrelies hcall ih =>
    obtain ⟨r, hr, hsliced⟩ := ih
    obtain ⟨r', hcall', hr'⟩ := (hr.setBoth timeout flag).parse hrelies hcall
    exact ⟨r', hr', hsliced.succ (fun t ht => (hold t ht).matches) hcall'⟩

variable (fingerprint) in
/-- Whether a parser keeps progress for an input, and what the checkpoint is then. -/
lemma Renders.exists_continues {p' : Parser Checkpoint} {c' : Suspended Checkpoint} (h : Renders p p')
    (hc : c' ∈ p'.suspended) (hcontinues : p'.continues language d c' = true) : ∃ c ∈ p.suspended,
    p.continuesBy fingerprint notedLanguage d c = true ∧ Spells c.progress c'.progress := by
  have hkeeps := h.suspended
  have hranges := h.ranges
  rw [Option.mem_def.1 hc] at hkeeps
  generalize hs : p.suspended = s at hkeeps
  cases hkeeps with
  | @some g document ranges x c hspells =>
    refine ⟨_, rfl, ?_, hspells⟩
    simp only [Parser.continues, Bool.and_eq_true, beq_iff_eq] at hcontinues
    obtain ⟨⟨hg, hd⟩, hr⟩ := hcontinues
    simp only [Parser.continuesBy, hg, hd, hr, hranges, beq_self_eq_true, Bool.and_true]
    exact beq_self_eq_true _

/-- A parser whose progress is a draft takes none of it up where the other parser does not. -/
lemma Renders.filter_eq_none {p' : Parser Checkpoint} (h : Renders p p')
    (hfresh : p.suspended.filter (p.continuesBy fingerprint notedLanguage d) = none) :
    p'.suspended.filter (p'.continues language d) = none := by
  rw [Option.filter_eq_none_iff] at hfresh ⊢
  intro c' hc' hcontinues
  obtain ⟨c, hc, hcontinues', -⟩ := h.exists_continues fingerprint hc' hcontinues
  exact hfresh c hc hcontinues'

/-- Where the fingerprint of the input is not that of another one, progress that is taken up stands for a
checkpoint that is. -/
lemma Renders.exists_continued {p' : Parser Checkpoint} {c : Suspended Suspension} (h : Renders p p')
    (hinput : ∀ c ∈ p.suspended, fingerprint c.document c.ranges = fingerprint d p.includedRanges →
      c.document = d ∧ c.ranges = p.includedRanges)
    (hc : c ∈ p.suspended) (hcontinues : p.continuesBy fingerprint notedLanguage d c = true) :
    ∃ c' ∈ p'.suspended, p'.continues language d c' = true ∧ Spells c.progress c'.progress := by
  have hkeeps := h.suspended
  have hranges := h.ranges
  have hsame := hinput c hc
  rw [Option.mem_def.1 hc] at hkeeps
  generalize hs : p'.suspended = s at hkeeps
  cases hkeeps with
  | @some g document ranges x c hspells =>
    refine ⟨_, rfl, ?_, hspells⟩
    simp only [Parser.continuesBy, Bool.and_eq_true, beq_iff_eq] at hcontinues
    obtain ⟨hg, hf⟩ := hcontinues
    obtain ⟨hd, hr⟩ := hsame hf
    simp only [Parser.continues, Bool.and_eq_true, beq_iff_eq]
    exact ⟨⟨hg, hd⟩, hr.trans hranges.symm⟩

/-- Calls for a document that are repeated, each from the progress that the one before it has left,
give a tree before they are more than twice the number of included characters and two, whatever old
trees they are given and however they are interrupted, where they can rely on the numbers of their events
and on fingerprints. Each that is cancelled instead leaves progress after the one that it went on from: at a
later byte, or with fewer open blocks. A call that is never told to stop is not cancelled. -/
theorem slicedBy_completes (h : UsedBy fingerprint p) (hq : SlicedBy fingerprint d p k q) :
    k ≤ 2 * (Source.ofDocument d p.includedRanges).chars.length + 1 ∧
      (0 < k → ∃ c ∈ q.suspended, q.continuesBy fingerprint notedLanguage d c = true) ∧
      ∀ timeout flag outside generation oldTree, (∀ t ∈ oldTree, MatchesBy fingerprint d t) →
        Relies fingerprint ((q.setTimeout timeout).setFlag flag) outside generation d oldTree →
        (∃ t q', ((q.setTimeout timeout).setFlag flag).parseBy fingerprint outside generation d oldTree =
          (.ok t, q')) ∨
        ¬ NeverFires (((q.setTimeout timeout).setFlag flag).probes outside) (.start timeout) ∧
        ∃ reason q' c, ((q.setTimeout timeout).setFlag flag).parseBy fingerprint outside generation d oldTree =
            (.error (.error (.cancelled reason)), q') ∧ SlicedBy fingerprint d p (k + 1) q' ∧
          c ∈ q'.suspended ∧ q'.continuesBy fingerprint notedLanguage d c = true ∧
          ∀ c₀ ∈ q.suspended, q.continuesBy fingerprint notedLanguage d c₀ = true →
            c₀.progress.Before c.progress := by
  obtain ⟨p', hp, hused⟩ := h.exists_used
  obtain ⟨r, hr, hsliced⟩ := hq.exists_sliced hp
  obtain ⟨hk, hprogress, hcalls⟩ := sliced_completes hused hsliced
  rw [hp.ranges] at hk
  refine ⟨hk, fun hpos => ?_, fun timeout flag outside generation oldTree hold hrelies => ?_⟩
  · obtain ⟨c', hc', hcontinues⟩ := hprogress hpos
    obtain ⟨c, hc, hcontinues', -⟩ := hr.exists_continues fingerprint hc' hcontinues
    exact ⟨c, hc, hcontinues'⟩
  have hset := hr.setBoth timeout flag
  obtain ⟨result, q', hcall⟩ : ∃ result q', ((q.setTimeout timeout).setFlag flag).parseBy fingerprint outside
      generation d oldTree = (result, q') := ⟨_, _, rfl⟩
  obtain ⟨r', hcall', hr'⟩ := hset.parse hrelies hcall
  rcases hcalls timeout flag outside generation oldTree fun t ht => (hold t ht).matches with
    ⟨t, _, htree⟩ | ⟨hn, reason, _, c', hcancelled, hc', hcontinues, hbefore⟩
  · rw [hcall'] at htree
    obtain ⟨rfl, -⟩ := Prod.mk.inj htree
    exact .inl ⟨t, q', hcall⟩
  · rw [hcall'] at hcancelled
    obtain ⟨rfl, rfl⟩ := Prod.mk.inj hcancelled
    obtain ⟨c, hc, hcontinues', hspells⟩ := hr'.exists_continues fingerprint hc' hcontinues
    refine .inr ⟨fun hnever => hn hnever, reason, q', c, hcall, hq.succ hold hrelies hcall, hc, hcontinues',
      fun c₀ hc₀ hfirst => ?_⟩
    obtain ⟨c₀', hc₀', hfirst', hspells₀⟩ := hr.exists_continued hrelies.input hc₀ hfirst
    exact hspells₀.before hspells (hbefore c₀' hc₀' hfirst')

end

/-- A call for `x;` that is told to stop at once may be repeated, and gives a tree if it is not told so
again. -/
theorem slicedBy_completes_statement :
    UsedBy Prod.mk plainNotedParser ∧ ∃ q, SlicedBy Prod.mk ⟨[120, 59], .utf8⟩ plainNotedParser 1 q ∧
      (∃ c ∈ q.suspended, q.continuesBy Prod.mk notedLanguage ⟨[120, 59], .utf8⟩ c = true) ∧
      ∃ t q', ((q.setTimeout 0).setFlag none).parseBy Prod.mk stillWorld 0 ⟨[120, 59], .utf8⟩ none =
        (.ok t, q') := by
  have hused : UsedBy Prod.mk plainNotedParser := .new rfl rfl
  have hstopped : (((plainNotedParser.setTimeout 0).setFlag (some 0)).parseBy Prod.mk
      ⟨fun _ _ => 1, fun _ => 0, 0⟩ 0 ⟨[120, 59], .utf8⟩ none).1.toOption.isNone = true := by
    decide +kernel
  obtain ⟨-, -, hcalls⟩ := slicedBy_completes (d := ⟨[120, 59], .utf8⟩) hused .zero
  obtain ⟨t, q, hcall⟩ | ⟨-, reason, q, -, hcall, hsliced, -⟩ := hcalls 0 (some 0)
    ⟨fun _ _ => 1, fun _ => 0, 0⟩ 0 none (fun _ ht => by cases ht)
    ⟨by decide +kernel, fun _ hc => by cases hc⟩
  · rw [hcall] at hstopped
    cases hstopped
  obtain ⟨-, hprogress, hcalls⟩ := slicedBy_completes hused hsliced
  have hq : q = (((plainNotedParser.setTimeout 0).setFlag (some 0)).parseBy Prod.mk
      ⟨fun _ _ => 1, fun _ => 0, 0⟩ 0 ⟨[120, 59], .utf8⟩ none).2 := by rw [hcall]
  refine ⟨hused, q, hsliced, hprogress Nat.one_pos, ?_⟩
  exact (hcalls 0 none stillWorld 0 none (fun _ ht => by cases ht)
    ⟨by rw [hq]; decide +kernel, fun _ _ hinput => Prod.mk.inj hinput⟩).resolve_right
      fun ⟨hn, _⟩ => hn (neverFires_of_flag fun _ => rfl)

end Reparse.C
