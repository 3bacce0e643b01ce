import Reparse.C.Watch
import Reparse.Proofs.Streams

/-!
# Checks and tokens

Between two checks of its interrupt a call takes one token, and the comments before it: a check follows
every token that is taken, comments apart (`Turn.watch_checks`). A call that takes many comments one after
the other is not checked while it does so (`Turn.exists_unchecked`). What a call does is what `Journal`
allows, which each of its parts keeps to (`Watched.Sound`).
-/

namespace Reparse.C

namespace Watched

variable {α β : Type} {number : Nat → Nat} {probes : Nat → Probe} {source : Source}
  {oldTree : Option Tree} {room : Nat}

/-! ## Watched calls and calls that are not watched -/

/-- An answer and a recorder, without what was done. -/
def forget (x : α × Watched) : α × Recorder := (x.1, x.2.recorder)

/-- A request changes the recorder as it does when nothing is watched. -/
lemma forget_attempt (f : Recorder → Except Misuse (α × Recorder)) (w : Watched) :
    (w.attempt f).map forget = f w.recorder := by
  rw [attempt]
  cases f w.recorder <;> rfl

/-- What goes on in the same way from answers that are the same does so watched and not. -/
lemma forget_bind {x : Except Misuse (α × Watched)} {y : Except Misuse (α × Recorder)}
    {f : α × Watched → Except Misuse (β × Watched)} {g : α × Recorder → Except Misuse (β × Recorder)}
    (h : x.map forget = y) (hf : ∀ a w, (f (a, w)).map forget = g (a, w.recorder)) :
    (x.bind f).map forget = y.bind g := by
  subst h
  cases x with
  | error misuse => rfl
  | ok x => exact hf x.1 x.2

/-- Some comments are taken as when nothing is watched. -/
lemma recorder_takeCommentsOf {ts : List Token} {w : Watched} (h : w.recorder.tokens = ts) :
    (takeCommentsOf ts w).recorder = w.recorder.takeComments := by
  induction ts generalizing w with
  | nil =>
    rw [Recorder.takeComments, h]
    show w.recorder = { w.recorder with tokens := [] }
    rw [← h]
  | cons t rest ih =>
    rw [takeCommentsOf, Recorder.takeComments, h]
    by_cases ht : t.isComment = true
    · rw [if_pos ht, ih rfl, List.takeWhile_cons_of_pos ht, List.dropWhile_cons_of_pos ht]
      rfl
    · rw [if_neg ht, List.takeWhile_cons_of_neg ht, List.dropWhile_cons_of_neg ht, ← h]
      rfl

/-- Comments are taken as when nothing is watched. -/
lemma recorder_takeComments (w : Watched) : w.takeComments.recorder = w.recorder.takeComments :=
  recorder_takeCommentsOf rfl

/-- The token ahead is the same as when nothing is watched. -/
lemma forget_current (w : Watched) : forget w.current = w.recorder.current := by
  rw [current, Recorder.current]
  split
  · rfl
  · rw [← recorder_takeComments]
    rfl

/-- A token is taken as when nothing is watched. -/
lemma forget_bump (field : Option Field) (w : Watched) :
    forget (w.bump number probes field) = w.recorder.bump number probes field := by
  rw [bump, Recorder.bump, ← forget_current]
  rcases w.current with ⟨_ | kind, w⟩
  · rfl
  · dsimp only [forget]
    cases w.recorder.tokens with
    | nil => rfl
    | cons t rest => rfl

/-- A marker is opened as when nothing is watched. -/
lemma forget_start (w : Watched) : forget (w.start number) = w.recorder.start number := by
  rw [start, Recorder.start]
  split
  · rfl
  · rw [← recorder_takeComments]
    rfl

/-- A bookmark is set as when nothing is watched. -/
lemma recorder_save (w : Watched) : (w.save probes source).recorder = w.recorder.save probes source := by
  rw [save, Recorder.save]
  split <;> rfl

/-- Every request is answered as when nothing is watched. -/
lemma forget_perform (q : Request) (w : Watched) :
    (w.perform number probes q).map forget = q.perform number probes w.recorder := by
  have hother := forget_attempt (fun r => q.perform number probes r) w
  cases q with
  | current => exact congrArg Except.ok (forget_current w)
  | bump field => exact congrArg Except.ok (forget_bump field w)
  | start => exact congrArg Except.ok (forget_start w)
  | _ => exact hother

/-- A script is run as when nothing is watched. -/
lemma forget_exec (p : Script α) (w : Watched) :
    (w.exec number probes p).map forget = p.exec number probes w.recorder := by
  induction p generalizing w with
  | done a => rfl
  | ask q more ih => exact forget_bind (forget_perform q w) ih

/-- A subtree is taken over as when nothing is watched. -/
lemma recorder_reuse? (allowed : List Rule) (w : Watched) :
    (w.reuse? probes source oldTree allowed).map (·.recorder) =
      w.recorder.reuse? probes source oldTree allowed := by
  rw [reuse?, Recorder.reuse?]
  cases w.recorder.isHalted with
  | true => rfl
  | false =>
    cases w.recorder.tokens with
    | nil => rfl
    | cons t rest =>
      dsimp only
      rw [Option.map_map]
      rfl

/-- A recorder advances as when nothing is watched. -/
lemma forget_advance (blocks : List BlockMark) (w : Watched) :
    (w.advance number probes source oldTree room blocks).map forget =
      w.recorder.advance number probes source oldTree room blocks := by
  rw [advance, Recorder.advance, ← recorder_reuse?]
  cases w.reuse? probes source oldTree (if blocks.isEmpty then reusableAtTop else reusableInBlock) with
  | some w => rfl
  | none =>
    refine forget_bind (forget_exec _ w) fun b w => ?_
    cases b <;> rfl

/-- A block is closed as when nothing is watched. -/
lemma forget_endBlock (b : BlockMark) (outer : List BlockMark) (w : Watched) :
    (w.endBlock number probes b outer).map forget = w.recorder.endBlock number probes b outer :=
  forget_bind (forget_exec _ _) fun _ _ => rfl

/-- A round is the same as when nothing is watched. -/
lemma forget_round (blocks : List BlockMark) (w : Watched) :
    (w.round number probes source oldTree room blocks).map forget =
      w.recorder.round number probes source oldTree room blocks := by
  have hend : ∀ (b : BlockMark) (outer : List BlockMark) (w : Watched),
      ((w.endBlock number probes b outer).bind fun x => .ok (x.map some id)).map forget =
        (w.recorder.endBlock number probes b outer).bind fun x => .ok (x.map some id) :=
    fun b outer w => forget_bind (forget_endBlock b outer w) fun _ _ => rfl
  have hadvance : ∀ (blocks : List BlockMark) (w : Watched),
      ((w.advance number probes source oldTree room blocks).bind fun x => .ok (x.map some id)).map forget =
        (w.recorder.advance number probes source oldTree room blocks).bind fun x => .ok (x.map some id) :=
    fun blocks w => forget_bind (forget_advance blocks w) fun _ _ => rfl
  unfold round Recorder.round
  rw [← forget_current]
  rcases w.current with ⟨_ | kind, w⟩
  · cases blocks with
    | nil => exact forget_attempt _ w
    | cons b outer => exact hend b outer w
  · cases blocks with
    | nil => exact hadvance [] w
    | cons b outer =>
      show Except.map forget (if kind = .rightBrace then _ else _) = if kind = .rightBrace then _ else _
      split
      · exact hend b outer w
      · exact hadvance (b :: outer) w

/-- A run is the same as when nothing is watched. -/
lemma forget_run (generation steps : Nat) (blocks : List BlockMark) (w : Watched) :
    (w.run number probes source oldTree room generation steps blocks).map forget =
      w.recorder.run number probes source oldTree room generation steps blocks := by
  induction steps generalizing blocks w with
  | zero =>
    rw [run, Recorder.run]
    split
    · exact forget_attempt _ w
    · rfl
  | succ steps ih =>
    rw [run, Recorder.run]
    split
    · exact forget_attempt _ w
    · dsimp only
      rw [recorder_save]
      split
      · rw [← recorder_save]
        exact forget_attempt _ _
      · rw [← recorder_save]
        refine forget_bind (forget_round blocks _) fun blocks w => ?_
        cases blocks with
        | none => exact forget_attempt _ w
        | some blocks => exact ih blocks w

end Watched

/-- But for the acts, a watched call is the call. -/
theorem Turn.forget_watch (turn : Turn) (source : Source) (progress : Option Suspension) :
    (turn.watch source progress).map Watched.forget = turn.record source progress :=
  Watched.forget_run ..

/-! ## What is no act -/

namespace Recorder

variable {r r' : Recorder}

/-- Whether a recorder takes no token and makes no check on the way to another. -/
def Rests (r r' : Recorder) : Prop := r'.tokens = r.tokens ∧ r'.interrupt = r.interrupt

/-- A recorder rests in two parts. -/
lemma Rests.trans {r'' : Recorder} (h : r.Rests r') (h' : r'.Rests r'') : r.Rests r'' :=
  ⟨h'.1.trans h.1, h'.2.trans h.2⟩

/-- A recorder rests in many steps if it does in each. -/
lemma rests_foldlM {γ : Type} {f : Recorder → γ → Except Misuse Recorder}
    (hf : ∀ {r x r'}, f r x = .ok r' → r.Rests r') {xs : List γ} (h : xs.foldlM f r = .ok r') :
    r.Rests r' := by
  induction xs generalizing r with
  | nil =>
    cases h
    exact ⟨rfl, rfl⟩
  | cons x xs ih =>
    rw [List.foldlM_cons] at h
    obtain ⟨r₁, hr₁, h⟩ := bind_ok h
    exact (hf hr₁).trans (ih h)

/-- To suspend markers neither takes tokens nor checks the interrupt. -/
lemma rests_suspend {markers : List Nat} (h : r.suspend markers = .ok r') : r.Rests r' := by
  refine rests_foldlM (fun hclose => ?_) h
  rw [close_ok hclose]
  exact ⟨rfl, rfl⟩

/-- To settle changes nothing. -/
lemma settle_ok (h : r.settle = .ok r') : r' = r := by
  rw [settle] at h
  split at h
  · cases h
    rfl
  · cases h

/-- To halt neither takes tokens nor checks the interrupt. -/
lemma rests_halt {blocks : List BlockMark} {outcome : Outcome Suspension}
    (h : r.halt blocks = .ok (outcome, r')) : r.Rests r' := by
  obtain ⟨r₁, hr₁, h⟩ := bind_ok h
  obtain ⟨r₂, hr₂, h⟩ := bind_ok h
  obtain ⟨r₃, hr₃, h⟩ := bind_ok h
  cases h
  have hblock : ∀ {r : Recorder} {b : BlockMark} {r' : Recorder},
      r.leaveBlock.suspend b.starts = .ok r' → r.Rests r' := by
    intro r b r' h
    have hrests : r.leaveBlock.Rests r' := rests_suspend h
    exact hrests
  have hblocks : r.Rests r₁ := rests_foldlM hblock hr₁
  rw [settle_ok hr₃]
  exact hblocks.trans (rests_suspend hr₂)

/-- To finish neither takes tokens nor checks the interrupt. -/
lemma rests_finish {source : Source} {generation : Nat} {outcome : Outcome Suspension}
    (h : r.finish source generation = .ok (outcome, r')) : r.Rests r' := by
  obtain ⟨r₁, hr₁, h⟩ := bind_ok h
  obtain ⟨tree, -, h⟩ := bind_ok h
  cases h
  rw [settle_ok hr₁]
  exact ⟨rfl, rfl⟩

/-- To complete a node neither takes tokens nor checks the interrupt. -/
lemma rests_complete {marker : Nat} {rule : Rule} {field : Option Field}
    (h : r.complete marker rule field = .ok r') : r.Rests r' := by
  obtain ⟨events, opened, rfl⟩ := complete_ok h
  exact ⟨rfl, rfl⟩

end Recorder

/-! ## What may follow what -/

/-- Whether a check follows every token that is taken, comments apart. -/
def Act.CheckEach (acts : List Act) : Prop :=
  ∀ (a : List Act) (t : Token) (b : List Act), acts = a ++ Act.took t :: b → t.isComment = false →
    b.head? = some .checked

namespace Act.CheckEach

/-- Without acts no check is due. -/
lemma nil : CheckEach [] := by
  rintro a t b h -
  cases a <;> cases h

/-- A check may come first. -/
lemma checked {acts : List Act} (h : CheckEach acts) : CheckEach (.checked :: acts) := by
  rintro a t b hacts ht
  cases a with
  | nil => cases hacts
  | cons x a =>
    cases hacts
    exact h a t b rfl ht

/-- A token may be taken before a check. -/
lemma took {acts : List Act} {t : Token} (h : CheckEach acts)
    (ht : t.isComment = false → acts.head? = some .checked) : CheckEach (.took t :: acts) := by
  rintro a t' b hacts ht'
  cases a with
  | nil =>
    cases hacts
    exact ht ht'
  | cons x a =>
    cases hacts
    exact h a t' b rfl ht'

/-- A check follows each token of two parts if it does in both. -/
lemma append {xs ys : List Act} (hx : CheckEach xs) (hy : CheckEach ys) : CheckEach (xs ++ ys) := by
  induction xs with
  | nil => exact hy
  | cons x xs ih =>
    have hxs : CheckEach xs := fun a t b hacts ht => hx (x :: a) t b (congrArg (x :: ·) hacts) ht
    cases x with
    | checked => exact (ih hxs).checked
    | took t =>
      refine (ih hxs).took fun ht => ?_
      rw [List.head?_append, hx [] t xs rfl ht]
      rfl

end Act.CheckEach

/-- What may be done where some tokens are still to come: a check comes first; comments are taken one
after the other; any token is taken if a check follows at once; and at a check the call may go on
elsewhere. -/
inductive Journal (source : Source) : List Act → List Token → Prop where
  | begin (byte : Nat) : Journal source [.checked] (tokensFrom source byte)
  | check {acts ts} : Journal source acts ts → Journal source (acts ++ [Act.checked]) ts
  | move {acts ts} (byte : Nat) :
    Journal source acts ts → Journal source (acts ++ [Act.checked]) (tokensFrom source byte)
  | comment {acts t ts} : Journal source acts (t :: ts) → t.isComment = true →
    Journal source (acts ++ [Act.took t]) ts
  | token {acts t ts} : Journal source acts (t :: ts) → Journal source (acts ++ [Act.took t, .checked]) ts

/-- Whether the tokens that are taken without a check between them follow one another in the source, and
those that are to come follow the last of them. -/
structure Consecutive (source : Source) (acts : List Act) (ahead : List Token) : Prop where
  last : ∀ ts : List Token, ts.map .took <:+ acts → ∃ byte, ts ++ ahead <:+ tokensFrom source byte
  all : ∀ ts : List Token, ts.map .took <:+: acts → ∃ byte, ts <:+: tokensFrom source byte

namespace Consecutive

variable {source : Source} {acts : List Act} {ahead : List Token}

/-- Acts that take tokens in order may be followed by a check, after which tokens are read anew. -/
lemma checked (h : Consecutive source acts ahead) {ts : List Token} {byte : Nat}
    (hts : ts <:+ tokensFrom source byte) : Consecutive source (acts ++ [Act.checked]) ts := by
  have hlast : ∀ us : List Token, us.map .took <:+ acts ++ [Act.checked] → us = [] := by
    intro us hus
    rcases List.suffix_concat_iff.1 hus with hnil | ⟨a, hmap, -⟩
    · exact List.map_eq_nil_iff.1 hnil
    · obtain ⟨_, vs, -, -, hvs⟩ := List.map_eq_append_iff.1 hmap
      rcases vs with _ | ⟨v, vs⟩ <;> cases hvs
  constructor
  · intro us hus
    rw [hlast us hus]
    exact ⟨byte, hts⟩
  · intro us hus
    rcases List.infix_concat_iff.1 hus with hsuffix | hinfix
    · rw [hlast us hsuffix]
      exact ⟨byte, List.nil_infix⟩
    · exact h.all us hinfix

/-- Acts that take tokens in order may be followed by one that takes the next token. -/
lemma took {t : Token} (h : Consecutive source acts (t :: ahead)) :
    Consecutive source (acts ++ [Act.took t]) ahead := by
  have hlast : ∀ us : List Token, us.map .took <:+ acts ++ [Act.took t] →
      ∃ byte, us ++ ahead <:+ tokensFrom source byte := by
    intro us hus
    rcases List.suffix_concat_iff.1 hus with hnil | ⟨a, hmap, ha⟩
    · obtain ⟨byte, hbyte⟩ := h.last [] List.nil_suffix
      rw [List.map_eq_nil_iff.1 hnil]
      exact ⟨byte, (List.suffix_cons t ahead).trans hbyte⟩
    · obtain ⟨vs, ws, rfl, rfl, hws⟩ := List.map_eq_append_iff.1 hmap
      obtain ⟨w, rfl, hw⟩ := List.map_eq_singleton_iff.1 hws
      cases hw
      obtain ⟨byte, hbyte⟩ := h.last vs ha
      exact ⟨byte, by rwa [List.append_assoc]⟩
  refine ⟨hlast, fun us hus => ?_⟩
  rcases List.infix_concat_iff.1 hus with hsuffix | hinfix
  · obtain ⟨byte, hbyte⟩ := hlast us hsuffix
    exact ⟨byte, (List.prefix_append us ahead).isInfix.trans hbyte.isInfix⟩
  · exact h.all us hinfix

end Consecutive

namespace Journal

variable {source : Source} {acts : List Act} {ahead : List Token}

/-- A check comes first. -/
lemma head? (h : Journal source acts ahead) : acts.head? = some .checked := by
  induction h with
  | begin => rfl
  | check _ ih | move _ _ ih | comment _ _ ih | token _ ih =>
    rw [List.head?_append, ih]
    rfl

/-- A check follows every token that is taken, comments apart. -/
lemma checkEach (h : Journal source acts ahead) : Act.CheckEach acts := by
  induction h with
  | begin => exact Act.CheckEach.nil.checked
  | check _ ih | move _ _ ih => exact ih.append Act.CheckEach.nil.checked
  | comment _ hcomment ih =>
    refine ih.append (Act.CheckEach.nil.took fun ht => ?_)
    rw [hcomment] at ht
    cases ht
  | token _ ih => exact ih.append (Act.CheckEach.nil.checked.took fun _ => rfl)

/-- The tokens that are taken without a check between them follow one another. -/
lemma consecutive (h : Journal source acts ahead) : Consecutive source acts ahead := by
  induction h with
  | begin byte =>
    have hnone : Consecutive source [] [] := by
      constructor
      · intro ts hts
        rw [List.map_eq_nil_iff.1 (List.suffix_nil.1 hts)]
        exact ⟨0, List.nil_suffix⟩
      · intro ts hts
        rw [List.map_eq_nil_iff.1 (List.infix_nil.1 hts)]
        exact ⟨0, List.nil_infix⟩
    exact hnone.checked (List.suffix_refl _)
  | check _ ih =>
    obtain ⟨byte, hbyte⟩ := ih.last [] List.nil_suffix
    exact ih.checked hbyte
  | move byte _ ih => exact ih.checked (List.suffix_refl _)
  | comment _ _ ih => exact ih.took
  | token _ ih =>
    have htook := ih.took
    obtain ⟨byte, hbyte⟩ := htook.last [] List.nil_suffix
    rw [List.append_cons]
    exact htook.checked hbyte

/-- Where no more than `k` comments follow one another, no more than `k + 1` tokens are taken without a
check between them. -/
lemma length_le (h : Journal source acts ahead) {k : Nat} (hk : ∀ byte cs, cs <:+: tokensFrom source byte →
    (∀ t ∈ cs, t.isComment = true) → cs.length ≤ k) {ts : List Token} (hts : ts.map .took <:+: acts) :
    ts.length ≤ k + 1 := by
  rcases List.eq_nil_or_concat' ts with rfl | ⟨us, t, rfl⟩
  · exact Nat.zero_le _
  · obtain ⟨byte, hbyte⟩ := h.consecutive.all _ hts
    have hcomments : ∀ u ∈ us, u.isComment = true := by
      intro u hu
      obtain ⟨a, b, rfl⟩ := List.append_of_mem hu
      obtain ⟨before, after, hacts⟩ := hts
      by_contra hcomment
      -- what follows it is a token and no check
      have hnext := h.checkEach (before ++ a.map .took) u (b.map .took ++ .took t :: after)
        (by rw [← hacts]; simp) (Bool.eq_false_iff.2 hcomment)
      cases b <;> cases hnext
    have hlength := hk byte us ((List.prefix_append us [t]).isInfix.trans hbyte) hcomments
    rw [List.length_append, List.length_singleton]
    omega

end Journal

namespace Watched

variable {α β : Type} {number : Nat → Nat} {probes : Nat → Probe} {source : Source}
  {oldTree : Option Tree} {room : Nat}
variable {i : Interrupt}

/-- Whether the acts are such as may follow one another, and the interrupt was checked whenever they
say so. -/
structure Sound (probes : Nat → Probe) (source : Source) (i : Interrupt) (w : Watched) : Prop where
  journal : Journal source w.acts w.recorder.tokens
  interrupt : w.recorder.interrupt = i.pollTimes probes (w.acts.count .checked)

/-- Whether something holds of what is left, if there is no misuse. -/
def Ends (p : Watched → Prop) (x : Except Misuse (α × Watched)) : Prop := ∀ a w, x = .ok (a, w) → p w

namespace Ends

variable {p q : Watched → Prop}

/-- A result of which something holds ends so. -/
lemma ok {a : α} {w : Watched} (h : p w) : Ends p (.ok (a, w)) := by
  rintro _ _ ⟨⟩
  exact h

/-- What holds of each part of a computation holds at its end. -/
lemma bind {x : Except Misuse (α × Watched)} {f : α × Watched → Except Misuse (β × Watched)}
    (h : Ends p x) (hf : ∀ a w, p w → Ends q (f (a, w))) : Ends q (x.bind f) := by
  cases x with
  | error misuse => exact nofun
  | ok x => exact hf x.1 x.2 (h x.1 x.2 rfl)

end Ends

namespace Sound

variable {w w' : Watched}

/-- A recorder is sound whatever its events are. -/
lemma of_eq (h : w.Sound probes source i) (ha : w'.acts = w.acts)
    (ht : w'.recorder.tokens = w.recorder.tokens)
    (hi : w'.recorder.interrupt = w.recorder.interrupt) : w'.Sound probes source i := by
  refine ⟨?_, ?_⟩
  · rw [ha, ht]
    exact h.journal
  · rw [ha, hi]
    exact h.interrupt

/-- One check more. -/
lemma interrupt_poll (h : w.recorder.interrupt = i.pollTimes probes (w.acts.count .checked)) :
    (w.poll probes).recorder.interrupt = i.pollTimes probes ((w.poll probes).acts.count .checked) := by
  show w.recorder.interrupt.poll probes = _
  rw [Watched.poll, List.count_append, h, Interrupt.pollTimes_add]
  rfl

/-- A sound recorder may check its interrupt. -/
lemma poll (h : w.Sound probes source i) : (w.poll probes).Sound probes source i :=
  ⟨h.journal.check, interrupt_poll h.interrupt⟩

/-- A sound recorder may take a comment. -/
lemma comment {t : Token} {rest : List Token} (h : w.Sound probes source i)
    (ht : w.recorder.tokens = t :: rest) (hcomment : t.isComment = true) :
    (w.take t rest).Sound probes source i := by
  have hjournal := h.journal
  rw [ht] at hjournal
  refine ⟨hjournal.comment hcomment, ?_⟩
  rw [take, List.count_append]
  exact h.interrupt

/-- A sound recorder may take a token and then check its interrupt. -/
lemma token {t : Token} {rest : List Token} (h : w.Sound probes source i)
    (ht : w.recorder.tokens = t :: rest) : ((w.take t rest).poll probes).Sound probes source i := by
  have hjournal := h.journal
  rw [ht] at hjournal
  have htoken := hjournal.token
  rw [List.append_cons] at htoken
  refine ⟨htoken, interrupt_poll (w := w.take t rest) ?_⟩
  rw [take, List.count_append]
  exact h.interrupt

/-- A sound recorder may take some comments. -/
lemma takeCommentsOf {ts : List Token} (h : w.Sound probes source i) (hts : w.recorder.tokens = ts) :
    (Watched.takeCommentsOf ts w).Sound probes source i := by
  induction ts generalizing w with
  | nil => exact h
  | cons t rest ih =>
    rw [Watched.takeCommentsOf]
    split
    · rename_i hcomment
      exact ih ((h.comment hts hcomment).of_eq rfl rfl rfl) rfl
    · exact h

/-- A sound recorder may take the comments ahead. -/
lemma takeComments (h : w.Sound probes source i) : w.takeComments.Sound probes source i :=
  h.takeCommentsOf rfl

/-- A sound recorder may look at the next token. -/
lemma current (h : w.Sound probes source i) : w.current.2.Sound probes source i := by
  rw [Watched.current]
  split
  · exact h
  · exact h.takeComments

/-- A sound recorder may take the next token. -/
lemma bump (h : w.Sound probes source i) (field : Option Field) :
    (w.bump number probes field).2.Sound probes source i := by
  have hcurrent := h.current
  rw [Watched.bump]
  generalize w.current = c at hcurrent
  rcases c with ⟨_ | kind, w⟩
  · exact hcurrent
  · dsimp only at hcurrent ⊢
    cases ht : w.recorder.tokens with
    | nil => exact hcurrent
    | cons t rest => exact (hcurrent.token ht).of_eq rfl rfl rfl

/-- A sound recorder may open a marker. -/
lemma start (h : w.Sound probes source i) : (w.start number).2.Sound probes source i := by
  rw [Watched.start]
  split
  · exact h.of_eq rfl rfl rfl
  · exact h.takeComments.of_eq rfl rfl rfl

/-- A sound recorder may do what neither takes tokens nor checks the interrupt. -/
lemma attempt {f : Recorder → Except Misuse (α × Recorder)} (h : w.Sound probes source i)
    (hf : ∀ a r, f w.recorder = .ok (a, r) → w.recorder.Rests r) :
    Ends (Sound probes source i) (w.attempt f) := by
  intro a w' hw
  obtain ⟨⟨a', r⟩, hr, heq⟩ := map_ok hw
  obtain ⟨ht, hi⟩ := hf a' r hr
  cases heq
  exact h.of_eq rfl ht hi

/-- A sound recorder may answer a request. -/
lemma perform (h : w.Sound probes source i) (q : Request) :
    Ends (Sound probes source i) (w.perform number probes q) := by
  have hother := fun hf => h.attempt (f := fun r => q.perform number probes r) hf
  cases q with
  | current => exact .ok h.current
  | bump field => exact .ok (h.bump field)
  | start => exact .ok h.start
  | peek | missing | setField =>
    refine hother fun a r hr => ?_
    cases hr
    exact ⟨rfl, rfl⟩
  | precede completed =>
    refine hother fun a r hr => ?_
    obtain ⟨events, opened, rfl⟩ := Recorder.precede_ok hr
    exact ⟨rfl, rfl⟩
  | precedeToken event =>
    refine hother fun a r hr => ?_
    obtain ⟨events, opened, rfl⟩ := Recorder.precedeToken_ok hr
    exact ⟨rfl, rfl⟩
  | complete marker rule field =>
    refine hother fun a r hr => ?_
    obtain ⟨r', hr, heq⟩ := map_ok hr
    cases heq
    exact Recorder.rests_complete hr
  | abandon marker =>
    refine hother fun a r hr => ?_
    obtain ⟨r', hr, heq⟩ := map_ok hr
    obtain ⟨events, opened, rfl⟩ := Recorder.abandon_ok hr
    cases heq
    exact ⟨rfl, rfl⟩

/-- A sound recorder may run a script. -/
lemma exec (h : w.Sound probes source i) (p : Script α) :
    Ends (Sound probes source i) (w.exec number probes p) := by
  induction p generalizing w with
  | done a => exact .ok h
  | ask q more ih => exact (h.perform q).bind fun a w hw => ih a hw

/-- A sound recorder may take a subtree over. -/
lemma reuse? (h : w.Sound probes source i) {allowed : List Rule}
    (hw : w' ∈ w.reuse? probes source oldTree allowed) : w'.Sound probes source i := by
  rw [Watched.reuse?] at hw
  split at hw
  · obtain ⟨n, -, rfl⟩ := Option.map_eq_some_iff.1 hw
    exact ⟨h.journal.move n.stopByte, interrupt_poll (w := w.update _) h.interrupt⟩
  · cases hw

/-- A sound recorder may advance. -/
lemma advance (h : w.Sound probes source i) (blocks : List BlockMark) :
    Ends (Sound probes source i) (w.advance number probes source oldTree room blocks) := by
  rw [Watched.advance]
  split
  · rename_i w' hw
    exact .ok (h.reuse? hw)
  · refine (h.exec _).bind fun b w hw => ?_
    cases b with
    | none => exact .ok hw
    | some b => exact .ok (hw.of_eq rfl rfl rfl)

/-- A sound recorder may close a block. -/
lemma endBlock (h : w.Sound probes source i) (b : BlockMark) (outer : List BlockMark) :
    Ends (Sound probes source i) (w.endBlock number probes b outer) := by
  have hleft : (w.update (·.leaveBlock)).Sound probes source i := h.of_eq rfl rfl rfl
  exact (hleft.exec _).bind fun _ _ hw => .ok hw

/-- A sound recorder may go on by a round. -/
lemma round (h : w.Sound probes source i) (blocks : List BlockMark) :
    Ends (Sound probes source i) (w.round number probes source oldTree room blocks) := by
  have hcurrent := h.current
  unfold Watched.round
  generalize w.current = c at hcurrent
  rcases c with ⟨_ | kind, w⟩
  · cases blocks with
    | nil =>
      refine hcurrent.attempt fun a r hr => ?_
      obtain ⟨r₁, hr₁, hr⟩ := bind_ok hr
      cases hr
      exact Recorder.rests_complete hr₁
    | cons b outer => exact (hcurrent.endBlock b outer).bind fun _ _ hw => .ok hw
  · cases blocks with
    | nil => exact (hcurrent.advance []).bind fun _ _ hw => .ok hw
    | cons b outer =>
      show Ends _ (if kind = .rightBrace then _ else _)
      split
      · exact (hcurrent.endBlock b outer).bind fun _ _ hw => .ok hw
      · exact (hcurrent.advance (b :: outer)).bind fun _ _ hw => .ok hw

/-- Rounds are sound if they begin where a check leaves what is sound, and make that check. -/
lemma run {generation steps : Nat} {blocks : List BlockMark} (hpoll : (w.poll probes).Sound probes source i)
    (h : w.Sound probes source i ∨ w.recorder.isHalted = false ∧ 0 < steps) :
    Ends (Sound probes source i) (w.run number probes source oldTree room generation steps blocks) := by
  induction steps generalizing w blocks with
  | zero =>
    obtain h : w.Sound probes source i := h.resolve_right fun h => Nat.lt_irrefl 0 h.2
    rw [Watched.run]
    split
    · exact h.attempt fun _ _ hr => Recorder.rests_halt hr
    · exact .ok h
  | succ steps ih =>
    rw [Watched.run]
    split
    · rename_i hhalted
      obtain h : w.Sound probes source i := h.resolve_right fun h => by
        rw [h.1] at hhalted
        cases hhalted
      exact h.attempt fun _ _ hr => Recorder.rests_halt hr
    · rename_i hhalted
      have hsave : (w.save probes source).Sound probes source i := by
        rw [Watched.save, if_neg hhalted]
        exact hpoll.of_eq rfl rfl rfl
      dsimp only
      split
      · exact hsave.attempt fun _ _ hr => Recorder.rests_halt hr
      · refine (hsave.round blocks).bind fun blocks w hw => ?_
        cases blocks with
        | none => exact hw.attempt fun _ _ hr => Recorder.rests_finish hr
        | some blocks => exact ih hw.poll (.inl hw)

end Sound

end Watched

/-- In a watched call a check comes first, a check directly follows every token that is taken, comments
apart, and the tokens that are taken between two checks follow one another in the source. So where no more
than `k` comments follow one another, no more than `k + 1` tokens are taken between two checks, and where
there are no comments no more than one. This is so for every call, whatever calls for the source came before
it and were halted, from which old tree parts were taken over, and when interrupts fired. But for the acts
it is the call that is not watched, and its interrupt was checked as often as the acts say. -/
theorem Turn.watch_checks (source : Source) (earlier : List Turn) (turn : Turn) : ∃ x outcome w,
    Turn.recorded source earlier = .ok x ∧ turn.watch source x = .ok (outcome, w) ∧
    turn.record source x = .ok (outcome, w.recorder) ∧
    w.recorder.interrupt = (Interrupt.start turn.timeout).pollTimes turn.probes (w.acts.count .checked) ∧
    w.acts.head? = some .checked ∧ Act.CheckEach w.acts ∧
    (∀ ts : List Token, ts.map .took <:+: w.acts → ∃ byte, ts <:+: tokensFrom source byte) ∧
    ∀ k, (∀ byte cs, cs <:+: tokensFrom source byte → (∀ t ∈ cs, t.isComment = true) → cs.length ≤ k) →
      ∀ ts : List Token, ts.map .took <:+: w.acts → ts.length ≤ k + 1 := by
  obtain ⟨x, hx, hresumes, -⟩ := resumes_reached source earlier
  obtain ⟨outcome, r, hyields, -, -⟩ := hresumes.recordBy source turn
  have hrecord : turn.record source x = .ok (outcome, r) := hyields id (Recorder.numbered_id r)
  have hforget := turn.forget_watch source x
  rw [hrecord] at hforget
  obtain ⟨⟨outcome', w⟩, hwatch, heq⟩ := map_ok hforget
  obtain ⟨rfl, rfl⟩ : outcome' = outcome ∧ w.recorder = r := Prod.mk.inj heq
  have hsound : w.Sound turn.probes source (.start turn.timeout) := by
    refine Watched.Sound.run ?_ ?_ outcome' w hwatch
    · cases x with
      | none => exact ⟨.begin 0, rfl⟩
      | some x => exact ⟨.begin x.byte, rfl⟩
    · refine .inr ⟨?_, by omega⟩
      cases x <;> rfl
  have hjournal := hsound.journal
  exact ⟨x, outcome', w, hx, hwatch, hrecord, hsound.interrupt, hjournal.head?, hjournal.checkEach,
    hjournal.consecutive.all, fun k hk ts => hjournal.length_le hk⟩

/-- In a call for a semicolon no more than one token is taken between two checks. -/
theorem Turn.watch_checks_semicolon : ∃ outcome w,
    Turn.watch ⟨none, 0, 0, 0, fun k => ⟨k, 0⟩⟩ (.ofDocument ⟨[59], .utf8⟩ []) none = .ok (outcome, w) ∧
    .took ⟨.semicolon, 0, 1, 0⟩ ∈ w.acts ∧
    ∀ ts : List Token, ts.map .took <:+: w.acts → ts.length ≤ 1 := by
  obtain ⟨x, outcome, w, hx, hwatch, -, -, -, -, -, hlength⟩ :=
    Turn.watch_checks (.ofDocument ⟨[59], .utf8⟩ []) [] ⟨none, 0, 0, 0, fun k => ⟨k, 0⟩⟩
  obtain rfl : none = x := Except.ok.inj hx
  refine ⟨outcome, w, hwatch, ?_, hlength 0 fun byte cs hcs hcomments => ?_⟩
  · cases hwatch
    decide
  · have htokens : ∀ t ∈ tokensFrom (.ofDocument ⟨[59], .utf8⟩ []) byte, t.isComment = false := by
      cases byte with
      | zero => decide
      | succ byte => exact nofun
    cases cs with
    | nil => exact Nat.le_refl 0
    | cons t cs =>
      have ht := htokens t (hcs.mem (List.mem_cons_self ..))
      rw [hcomments t (List.mem_cons_self ..)] at ht
      cases ht

/-- Not in every call is no more than one token taken between two checks: comments are taken without a
check. -/
theorem Turn.exists_unchecked : ¬ ∀ (source : Source) (turn : Turn) (outcome : Outcome Suspension)
    (w : Watched), turn.watch source none = .ok (outcome, w) →
    ∀ ts : List Token, Act.checked :: ts.map .took ++ [Act.checked] <:+: w.acts → ts.length ≤ 1 := by
  intro h
  -- two comments and a semicolon; the flag is set at the second check
  have hlength := h (.ofDocument ⟨[47, 42, 42, 47, 47, 42, 42, 47, 59], .utf8⟩ [])
    ⟨none, 0, 0, 0, fun k => ⟨k, 0⟩⟩ _ _ rfl
    [⟨.comment, 0, 4, 1⟩, ⟨.comment, 4, 8, 1⟩, ⟨.semicolon, 8, 9, 0⟩] ⟨[], [], rfl⟩
  exact absurd hlength (by decide)

end Reparse.C
