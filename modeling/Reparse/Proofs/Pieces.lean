import Reparse.Proofs.Operands

/-!
# Scripts of declarations and statements

In a script that has opened a marker the parts of the node come one by one, and what becomes of the
marker shows only after some of them (`Continues`): it is completed, given up, or left open as the
start of a block. So scripts read the pieces that the readers of statements read
(`runs_statement`, `runs_topLevel`), and of an open block note where it starts (`Opens`).
-/

namespace Reparse.C

open Event Item Recorder

variable {probes : Nat → Probe}

namespace Script

variable {α β : Type}

/-- Whether a script, from any recorder that sees `ts`, ends without misuse and as `Q` says. -/
def Runs (probes : Nat → Probe) (p : Script α) (ts : List Token)
    (Q : Recorder → α → Recorder → Prop) : Prop :=
  ∀ r : Recorder, r.Tame → r.view probes = ts → ∃ a r', Yields probes p r a r' ∧
    r.events.length ≤ r'.events.length ∧ Q r a r'

/-- Whether a script that goes on in a node, whose marker is open and of which some parts are noted,
ends without misuse and as `Q` says. -/
def Continues (probes : Nat → Probe) (k : Nat → Script α) (parts : List Item) (ts : List Token)
    (Q : Recorder → α → Recorder → Prop) : Prop :=
  ∀ (r₀ r : Recorder) (events : List Event), r₀.Tame → NotesAll events parts →
    Appends r₀ { r with opened := r₀.opened } (.tombstone :: events) →
    r.opened = r₀.events.length :: r₀.opened → r.view probes = ts →
    ∃ a r', Yields probes (k r₀.events.length) r a r' ∧ r.events.length ≤ r'.events.length ∧ Q r₀ a r'

/-- Ending with `a` after a reading was noted. -/
def Noted (probes : Nat → Probe) (a : α) (rd : Reading) (r : Recorder) (a' : α) (r' : Recorder) : Prop :=
  a' = a ∧ ∃ events, Appends r r' events ∧ r'.view probes = rd.2 ∧ NotesAll events rd.1

/-- A marker is opened where no comment comes next. -/
lemma Runs.start {k : Nat → Script α} {ts : List Token} {Q : Recorder → α → Recorder → Prop}
    (hc : comments ts = ([], ts)) (h : Continues probes k [] ts Q) :
    Runs probes (Script.start >>= k) ts Q := by
  intro r ht hv
  obtain ⟨r₁, r₂, hstart, hadds, he, ho, hb, hm, hview⟩ := @start_spec probes r
  have hev := hadds.events
  rw [hv, commentEvents_eq_nil hc, List.append_nil] at hev
  rw [hv, hc] at hview
  rw [hev, hadds.opened] at ho
  obtain ⟨a, r', hk, hle, hq⟩ := h r r₂ [] ht .nil
    ⟨by rw [← hev]; exact he, rfl, hb.trans hadds.blocks, hm.trans hadds.bookmark⟩ ho hview
  have hlonger : r.events.length ≤ r₂.events.length := by
    rw [he, hev, List.length_append]
    exact Nat.le_add_right _ _
  exact ⟨a, r', (yields_start hstart).bind (by rwa [hev]) hle, Nat.le_trans hlonger hle, hq⟩

/-- A script that starts a node skips the comments before it. -/
lemma Reads.start {k : Nat → Script α} {ts us : List Token} {before : List Item} {a : α} {rd : Reading}
    (hc : comments ts = (before, us)) (h : Continues probes k [] us (Noted probes a rd)) :
    Reads probes (Script.start >>= k) ts a (before ++ rd.1, rd.2) := by
  intro r ht hv
  obtain ⟨r₁, r₂, hstart, hadds, he, ho, hb, hm, hview⟩ := @start_spec probes r
  have hn := notesAll_comments ts
  rw [hv] at hadds hview
  rw [hc] at hview hn
  obtain ⟨_, r', hk, hle, rfl, events, hadds', hview', hn'⟩ := h r₁ r₂ [] (hadds.tame ht hn.inside) .nil
    ⟨he, rfl, hb, hm⟩ ho hview
  exact ⟨r', _, (yields_start hstart).bind hk hle, hadds.trans hadds', hview', hn'.append hn⟩

namespace Continues

variable {k : Nat → Script α} {parts : List Item} {ts : List Token} {Q : Recorder → α → Recorder → Prop}

/-- While a marker is open, a recorder stays tame. -/
lemma tame {r₀ r : Recorder} {events : List Event} (ht : r₀.Tame) (hn : NotesAll events parts)
    (hadds : Appends r₀ { r with opened := r₀.opened } (.tombstone :: events))
    (ho : r.opened = r₀.events.length :: r₀.opened) : r.Tame := by
  refine tame_of_opened (hadds.tame ht ((Inside.start none none).append hn.inside)) ho ?_
  have hlength := congrArg List.length hadds.events
  rw [List.length_append, List.length_cons] at hlength
  exact hlength ▸ Nat.lt_add_of_pos_right (Nat.succ_pos _)

/-- What is read next are further parts. -/
lemma step {p : Script β} {f : β → Nat → Script α} {b : β} {rd : Reading} (h : Reads probes p ts b rd)
    (h' : Continues probes (f b) (parts ++ rd.1) rd.2 Q) :
    Continues probes (fun m => p >>= fun b => f b m) parts ts Q := by
  intro r₀ r events ht hn hadds ho hv
  obtain ⟨r₁, events', hp, hadds', hv', hn'⟩ := h r (tame ht hn hadds ho) hv
  obtain ⟨a, r', hf, hle, hq⟩ := h' r₀ r₁ (events ++ events') ht (hn'.append hn)
    ⟨by rw [hadds'.events, hadds.events, List.append_assoc]; rfl, rfl,
      hadds'.blocks.trans hadds.blocks, hadds'.bookmark.trans hadds.bookmark⟩
    (hadds'.opened.trans ho) hv'
  exact ⟨a, r', hp.bind hf hle, Nat.le_trans hadds'.length_le hle, hq⟩

/-- A script may be put together the other way. -/
lemma assoc {γ : Type} {p : Script β} {f : β → Script γ} {g : γ → Nat → Script α}
    (h : Continues probes (fun m => p >>= f >>= fun c => g c m) parts ts Q) :
    Continues probes (fun m => p >>= fun b => f b >>= fun c => g c m) parts ts Q := by
  simpa only [bind_assoc] using h

/-- A node is a further part. -/
lemma node {body : Script Unit} {us : List Token} {before : List Item} {inner : Reading}
    {f : Nat → Script α} (hc : comments ts = (before, us)) (rule : Rule) (field : Option Field)
    (h : Reads probes body us () inner)
    (h' : Continues probes f (parts ++ (before ++ [Item.node field rule inner.1])) inner.2 Q) :
    Continues probes (fun m => node rule field body >>= fun _ => f m) parts ts Q := by
  have hnode := reads_node hc h rule field (.pure () inner.2)
  have hall := step (f := fun _ => f) hnode h'
  simpa only [bind_assoc, pure_bind] using hall

/-- The node is completed. -/
lemma complete {more : Script α} {a : α} {rd : Reading} (rule : Rule) (field : Option Field)
    (h : Reads probes more ts a rd) :
    Continues probes (fun m => Script.complete m rule field >>= fun _ => more) parts ts
      (Noted probes a (.node field rule parts :: rd.1, rd.2)) := by
  intro r₀ r events ht hn hadds ho hv
  have he : r.events = r₀.events ++ .start none none none :: events := hadds.events
  have hcomplete := complete_spec he ho rule field
  rw [Option.or_none] at hcomplete
  have hadds' : Appends r₀ { r with
      events := r₀.events ++ .start (some rule) field none :: (events ++ [Event.finish])
      opened := r₀.opened } (.start (some rule) field none :: (events ++ [Event.finish])) :=
    ⟨rfl, rfl, hadds.blocks, hadds.bookmark⟩
  have hnode := NotesAll.single (@Notes.node field rule _ _ hn)
  obtain ⟨r', events', hmore, hadds'', hv', hn'⟩ := h _ (hadds'.tame ht hnode.inside) hv
  have hlonger : r.events.length ≤
      (r₀.events ++ Event.start (some rule) field none :: (events ++ [Event.finish])).length := by
    simp only [he, List.length_append, List.length_cons]
    omega
  exact ⟨a, r', (yields_complete hcomplete).bind hmore hadds''.length_le,
    Nat.le_trans hlonger hadds''.length_le, rfl, _, hadds'.trans hadds'', hv', hn'.append hnode⟩

/-- The first token of a node is taken, and what comes after it tells that there is no node: the marker is
given up, and its start stays before the token. -/
lemma loose {next : Option Terminal → Nat → Script α} {more : Script α} {a : α} {rd : Reading} {t : Token}
    {rest : List Token} (field : Option Field) (hc : comments (t :: rest) = ([], t :: rest))
    (hnext : ∀ m, next (ahead? rest) m = Script.abandon m >>= fun _ => more)
    (h : Reads probes more (comments rest).2 a rd) :
    Continues probes (fun m => Script.take field >>= fun _ => current >>= fun k => next k m) [] (t :: rest)
      (Noted probes a (.token field t :: (comments rest).1 ++ rd.1, rd.2)) := by
  intro r₀ r events ht hn hadds ho hv
  cases hn
  have htame := tame ht .nil hadds ho
  obtain ⟨r₁, htake, hadds₁, hv₁⟩ := exec_take hc field hv
  obtain ⟨r₂, before, hcurrent, hadds₂, hv₂, hn₂⟩ :=
    reads_current rest r₁ (hadds₁.tame htame (NotesAll.single .token).inside) hv₁
  have ho₂ : r₂.opened = r₀.events.length :: r₀.opened := hadds₂.opened.trans (hadds₁.opened.trans ho)
  have hall : Appends r₀ { r₂ with opened := r₀.opened }
      (.tombstone :: .token field t t.isComment :: before) :=
    ⟨by rw [hadds₂.events, hadds₁.events, hadds.events, List.append_assoc, List.append_assoc]; rfl, rfl,
      hadds₂.blocks.trans (hadds₁.blocks.trans hadds.blocks),
      hadds₂.bookmark.trans (hadds₁.bookmark.trans hadds.bookmark)⟩
  have he : r₂.events = r₀.events ++ .tombstone :: .token field t t.isComment :: before := hall.events
  have habandon := abandon_spec he (List.cons_ne_nil _ _) ho₂
  have hnotes : NotesAll (.tombstone :: .token field t t.isComment :: before)
      (.token field t :: (comments rest).1) := .loose hn₂
  obtain ⟨r', events', hmore, hadds', hv', hn'⟩ := h _ (hall.tame ht hnotes.inside) hv₂
  have hend : Yields probes (next (ahead? rest) r₀.events.length) r₂ a r' := by
    rw [hnext]
    exact (yields_abandon habandon).bind hmore hadds'.length_le
  have hle : r₁.events.length ≤ r'.events.length := Nat.le_trans hadds₂.length_le hadds'.length_le
  exact ⟨a, r', htake.bind (hcurrent.bind hend hadds'.length_le) hle, Nat.le_trans hadds₁.length_le hle, rfl,
    _, hall.trans hadds', hv', hn'.append hnotes⟩

end Continues

/-! ## Declarators -/

/-- A token at the front, before which no comment stands, is taken. -/
lemma take_of_comments {t : Token} {ts : List Token} (hc : comments (t :: ts) = ([], t :: ts))
    (field : Option Field) : C.take field (t :: ts) = ([.token field t], ts) := by
  rw [C.take, hc]
  rfl

/-- A parameter is noted as it is read. -/
lemma reads_parameter {ts : List Token} (hc : comments ts = ([], ts)) :
    Reads probes parameter ts (C.parameter ts).2 (C.parameter ts).1 := by
  have hcurrent := @reads_current probes ts
  rw [hc] at hcurrent
  rw [C.parameter]
  cases ha : ahead? ts with
  | none =>
    rw [ha] at hcurrent
    exact hcurrent.seq (.pure false ts) rfl
  | some kind =>
    rw [ha] at hcurrent
    dsimp only
    split
    · rename_i hf
      have hbody := (@reads_expect probes .primitiveType (some .type) ts).next
        (reads_takeIf .identifier (some .declarator) (.pure () _))
      have hnode := reads_node hc hbody .parameterDeclaration none (.pure true _)
      exact hcurrent.seq (by rw [if_pos (by simpa using hf)]; exact hnode) (by simp)
    · rename_i hf
      exact hcurrent.seq (by rw [if_neg (by simpa using hf)]; exact .pure false ts) rfl

/-- After comments there are no further ones. -/
lemma comments_comments (ts : List Token) : comments (comments ts).2 = ([], (comments ts).2) :=
  comments_of_commentAhead (commentAhead_comments ts)

/-- A declarator from its name on. -/
lemma reads_declarator_of_name {room : Nat} {t : Token} {rest : List Token} (hr : rest.length < room)
    (hc : comments (t :: rest) = ([], t :: rest)) (hk : t.kind = .identifier) :
    Reads probes (do
        let marker ← start
        take (some .declarator)
        match ← current with
        | some .leftParen =>
          let _ ← node .parameterList (some .parameters) (parenthesized room parameterFirst parameter)
          complete marker .functionDeclarator (some .declarator)
          return true
        | some .equals =>
          take none
          orMissing (some .value) (← expression room)
          complete marker .initDeclarator (some .declarator)
          return false
        | _ =>
          abandon marker
          return false) (t :: rest) (C.declarator (t :: rest)).2 (C.declarator (t :: rest)).1 := by
  have hname := @reads_take probes (some .declarator) (t :: rest)
  have hcurrent := @reads_current probes rest
  have hle := length_comments_le rest
  have hlist := length_take_le none (comments rest).2
  rw [take_of_comments hc] at hname
  rw [C.declarator, hc]
  dsimp only
  rw [if_pos hk, ahead?_comments]
  cases ha : ahead? rest with
  | none =>
    refine .of_eq (.start hc (.loose (some .declarator) hc (fun m => ?_) (.pure false _))) (by simp)
    rw [ha]
  | some kind =>
    rw [ha] at hcurrent
    cases kind with
    | leftParen =>
      have hparameters : Reads probes (parenthesized room parameterFirst parameter) (comments rest).2 () _ :=
        reads_parenthesized consumes_parameter (by omega) fun us _ hus => reads_parameter hus
      exact (Reads.start hc (.step hname (.step hcurrent (.node (comments_comments rest) .parameterList
        (some .parameters) hparameters (.complete .functionDeclarator (some .declarator)
          (.pure true _)))))).of_eq (by simp)
    | equals =>
      have hvalue := (@readsOperand_expression probes room (C.take none (comments rest).2).2
        (by omega)).orMissing (some .value)
      exact (Reads.start hc (.step hname (.step hcurrent (.step (reads_take none _) (.assoc (.step hvalue
        (.complete .initDeclarator (some .declarator) (.pure false _)))))))).of_eq (by simp)
    | _ =>
      refine .of_eq (.start hc (.loose (some .declarator) hc (fun m => ?_) (.pure false _))) (by simp)
      rw [ha]

/-- The comments before a declarator come first in what it is read as. -/
lemma declarator_of_comments {ts rest : List Token} {before : List Item} {t : Token}
    (hc : comments ts = (before, t :: rest)) : C.declarator ts =
      ((before ++ (C.declarator (t :: rest)).1.1, (C.declarator (t :: rest)).1.2),
        (C.declarator (t :: rest)).2) := by
  rw [C.declarator, C.declarator, hc, comments_rest hc]
  dsimp only
  split
  · split <;> simp
  · rfl

/-- A declarator is noted as it is read. -/
lemma reads_declarator {room : Nat} {ts : List Token} (hr : ts.length < room) :
    Reads probes (declarator room) ts (C.declarator ts).2 (C.declarator ts).1 := by
  rw [declarator]
  cases hc : comments ts with
  | mk before pending =>
    cases pending with
    | nil =>
      have hcomes := @reads_comes_of_ne probes .identifier ts
        (by rw [ahead?_of_comments_nil hc]; exact (Option.some_ne_none _).symm)
      rw [hc] at hcomes
      rw [C.declarator, hc]
      exact hcomes.seq ((reads_missing .identifier (some .declarator) _).bind (.pure false _)) rfl
    | cons t rest =>
      have hlt := length_comments_cons_le hc
      have hahead := ahead?_of_comments hc
      by_cases hk : t.kind = .identifier
      · have hcomes := @reads_comes_of_eq probes _ _ (hahead.trans (congrArg some hk))
        rw [hc] at hcomes
        rw [declarator_of_comments hc]
        exact hcomes.bind (reads_declarator_of_name (by omega) (comments_rest hc) hk)
      · have hcomes := @reads_comes_of_ne probes .identifier ts
          (by rw [hahead]; simpa using hk)
        rw [hc] at hcomes
        rw [C.declarator, hc]
        dsimp only
        rw [if_neg hk]
        exact hcomes.seq ((reads_missing .identifier (some .declarator) _).bind (.pure false _)) rfl

/-- Further declarators are noted as they are read. -/
lemma reads_moreDeclarators {room : Nat} (count : Nat) {ts : List Token} (hr : ts.length < room) :
    Reads probes (moreDeclarators room count) ts () (C.moreDeclarators count ts) := by
  induction count generalizing ts with
  | zero => exact .pure () ts
  | succ count ih =>
    rw [moreDeclarators, C.moreDeclarators]
    split
    · rename_i ha
      have hlt := length_take_lt_of_ahead none ha
      have hle := (keeps_declarator (C.take none ts).2).length_le
      have hcomma := @reads_takeIf_of_eq probes _ none _ ha
      rw [C.takeIf, if_pos ha] at hcomma
      have hrest := (@reads_declarator probes room (C.take none ts).2 (by omega)).next
        (@ih (C.declarator (C.take none ts).2).1.2 (by omega))
      exact hcomma.seq (by rw [if_pos rfl]; exact hrest) (by dsimp only; rw [List.append_assoc])
    · rename_i ha
      have hcomma := @reads_takeIf_of_ne probes _ none _ ha
      rw [C.takeIf, if_neg ha] at hcomma
      exact hcomma.seq (.pure () _) (by rw [List.append_nil])

/-- Where declarators follow comments, the comments may be taken before them. -/
lemma moreDeclarators_comments (count : Nat) (ts : List Token) :
    ((comments ts).1 ++ (C.moreDeclarators (count + 1) (comments ts).2).1,
      (C.moreDeclarators (count + 1) (comments ts).2).2) = C.moreDeclarators (count + 1) ts := by
  rw [C.moreDeclarators, C.moreDeclarators, ahead?_comments]
  split
  · have htake := take_comments none ts
    rw [← htake]
    dsimp only
    simp only [List.append_assoc]
  · rw [comments_comments, List.append_nil]

/-! ## Pieces -/

/-- Events that open a block, of which the first is number `n`: the start of its node, before which
may stand the start of the function definition whose body it is, and the other parts of that. A start
may have its rule already. -/
inductive Opens (n : Nat) : Option (List Item) → List Event → BlockMark → Prop where
  | compound {rule} : Opens n none [.start rule none none] ⟨n, none, none⟩
  | body {rule rule' field head is} : NotesAll head is →
    Opens n (some is) (.start rule none none :: (head ++ [Event.start rule' field none]))
      ⟨n + 1 + head.length, some .body, some n⟩

/-- Ending after a piece was noted. -/
def PieceNoted (probes : Nat → Probe) (piece : Piece) (rest : List Token) (r : Recorder)
    (a : Option BlockMark) (r' : Recorder) : Prop :=
  r'.view probes = rest ∧
  match piece with
  | .whole item => a = none ∧ ∃ events, Appends r r' events ∧ NotesAll events [item]
  | .opened definition brace => ∃ mark starts, a = some mark ∧
    Opens r.events.length definition starts mark ∧
    r'.opened = mark.starts ++ r.opened ∧ ∃ events, NotesAll events [.token none brace] ∧
    Appends r { r' with opened := r.opened } (starts ++ events)

/-- A piece that is read as a whole. -/
lemma Reads.piece {p : Script (Option BlockMark)} {ts rest : List Token} {item : Item}
    (h : Reads probes p ts none ([item], rest)) :
    Runs probes p ts (PieceNoted probes (.whole item) rest) := by
  intro r ht hv
  obtain ⟨r', events, hp, hadds, hview, hn⟩ := h r ht hv
  exact ⟨none, r', hp, hadds.length_le, hview, rfl, events, hadds, hn⟩

/-- An item that is noted in a node is a whole piece. -/
lemma Continues.piece {k : Nat → Script (Option BlockMark)} {parts : List Item} {ts rest : List Token}
    {item : Item} (h : Continues probes k parts ts (Noted probes none ([item], rest))) :
    Continues probes k parts ts (PieceNoted probes (.whole item) rest) := by
  intro r₀ r events ht hn hadds ho hv
  obtain ⟨_, r', hk, hle, rfl, events', hadds', hview, hn'⟩ := h r₀ r events ht hn hadds ho hv
  exact ⟨none, r', hk, hle, hview, rfl, events', hadds', hn'⟩

/-- A block is opened by the next token. -/
lemma runs_block {t : Token} {rest : List Token} (hc : comments (t :: rest) = ([], t :: rest))
    (field : Option Field) (definition : Option Nat) :
    Runs probes (block field definition) (t :: rest) fun r mark r' =>
      mark = ⟨r.events.length, field, definition⟩ ∧ r'.view probes = rest ∧
      r'.opened = r.events.length :: r.opened ∧ ∃ events, NotesAll events [.token none t] ∧
      Appends r { r' with opened := r.opened } (.tombstone :: events) := by
  have htake := @reads_take probes none (t :: rest)
  rw [take_of_comments hc] at htake
  refine .start hc (.step htake ?_)
  intro r₀ r events ht hn hadds ho hv
  exact ⟨_, r, .pure _ r, Nat.le_refl _, rfl, hv, ho, events, hn, hadds⟩

/-- A block that stands alone is opened. -/
lemma runs_compound {t : Token} {rest : List Token} (hc : comments (t :: rest) = ([], t :: rest)) :
    Runs probes (do return some (← block none none)) (t :: rest)
      (PieceNoted probes (.opened none t) rest) := by
  intro r ht hv
  obtain ⟨_, r', hblock, hle, rfl, hview, ho, events, hn, hadds⟩ := runs_block hc none none r ht hv
  exact ⟨_, r', hblock.map some, hle, hview, _, _, rfl, .compound, ho, events, hn, hadds⟩

/-- The body of a function is opened inside its definition. -/
lemma continues_body {t : Token} {rest : List Token} {parts : List Item}
    (hc : comments (t :: rest) = ([], t :: rest)) :
    Continues probes (fun m => do return some (← block (some .body) (some m))) parts (t :: rest)
      (PieceNoted probes (.opened (some parts) t) rest) := by
  intro r₀ r events ht hn hadds ho hv
  obtain ⟨_, r', hblock, hle, rfl, hview, ho', events', hn', hadds'⟩ :=
    runs_block hc (some .body) (some r₀.events.length) r (Continues.tame ht hn hadds ho) hv
  have hlength : r.events.length = r₀.events.length + 1 + events.length := by
    have hevents := congrArg List.length hadds.events
    rw [List.length_append, List.length_cons] at hevents
    dsimp only at hevents
    omega
  rw [hlength] at hblock ho'
  have hopens : Opens r₀.events.length (some parts) (.tombstone :: (events ++ [Event.tombstone])) _ :=
    .body hn
  refine ⟨_, r', hblock.map some, hle, hview, _, _, rfl, hopens, ?_, events', hn', ?_⟩
  · rw [ho', ho]
    rfl
  · refine ⟨?_, rfl, hadds'.blocks.trans hadds.blocks, hadds'.bookmark.trans hadds.bookmark⟩
    have hevents : r.events = r₀.events ++ .tombstone :: events := hadds.events
    show r'.events = _
    rw [show r'.events = _ from hadds'.events, hevents]
    simp

/-- A declaration from its declarators on. -/
lemma continues_declarators {room : Nat} (parts : List Item) {ts : List Token} (hr : ts.length < room) :
    Continues probes (fun m => do
        moreDeclarators room room
        expect .semicolon none
        complete m .declaration none
        return none) parts ts
      (PieceNoted probes (.whole (.node none .declaration (parts ++ ((C.moreDeclarators room ts).1 ++
        (C.expect .semicolon none (C.moreDeclarators room ts).2).1))))
        (C.expect .semicolon none (C.moreDeclarators room ts).2).2) := by
  have hwhole : Continues probes (fun m => do
        moreDeclarators room room
        expect .semicolon none
        complete m .declaration none
        return none) parts ts (Noted probes (none : Option BlockMark) _) :=
    .step (reads_moreDeclarators room hr) (.step (reads_expect .semicolon none _)
      (.complete .declaration none (.pure none _)))
  rw [List.append_assoc] at hwhole
  exact Continues.piece hwhole

/-- A declaration without a body goes on as its reader does, whether the comments after its first
declarator are taken or not. -/
lemma declarationTail_eq {room : Nat} {ts : List Token} (hr : ts.length < room) :
    C.declarationTail ts = ((C.moreDeclarators room (C.declarator ts).1.2).1 ++
        (C.expect .semicolon none (C.moreDeclarators room (C.declarator ts).1.2).2).1,
      (C.expect .semicolon none (C.moreDeclarators room (C.declarator ts).1.2).2).2) := by
  obtain ⟨room, rfl⟩ : ∃ n, room = n + 1 := ⟨room - 1, by omega⟩
  have hle := (keeps_declarator ts).length_le
  have hle' := length_comments_le (C.declarator ts).1.2
  rw [C.declarationTail, ← moreDeclarators_comments]
  dsimp only
  rw [moreDeclarators_eq (Nat.le_refl _) (by omega : (comments (C.declarator ts).1.2).2.length ≤ room + 1)]

/-- A declaration is noted as it is read, or a function definition is opened. -/
lemma runs_declaration {room : Nat} {t : Token} {ts : List Token} (mayDefine : Bool)
    (hr : ts.length < room) (hc : comments (t :: ts) = ([], t :: ts)) :
    Runs probes (declaration room mayDefine) (t :: ts)
      (PieceNoted probes (C.declaration mayDefine t ts).1 (C.declaration mayDefine t ts).2) := by
  have htype := @reads_take probes (some .type) (t :: ts)
  have hle := (keeps_declarator ts).length_le
  rw [take_of_comments hc] at htype
  refine .start hc (.step htype (.step (reads_declarator hr) ?_))
  cases hb : bodyAhead mayDefine ts with
  | true =>
    obtain ⟨brace, rest, hbrace, -, heq⟩ := declaration_of_bodyAhead t hb
    simp only [bodyAhead, Bool.and_eq_true, beq_iff_eq] at hb
    obtain ⟨⟨hm, hf⟩, ha⟩ := hb
    have hcomments := comments_comments (C.declarator ts).1.2
    rw [hbrace] at hcomments
    rw [heq]
    have hparts : Item.token (some .type) t ::
          ((C.declarator ts).1.1 ++ (comments (C.declarator ts).1.2).1) =
        [] ++ [Item.token (some .type) t] ++ (C.declarator ts).1.1 ++
          (comments (C.declarator ts).1.2).1 := by
      simp
    simp only [hm, hf, Bool.and_self, if_true]
    refine .step (reads_comes_of_eq ha) ?_
    simp only [if_true]
    rw [hparts, hbrace]
    exact continues_body hcomments
  | false =>
    rw [declaration_of_not_bodyAhead t hb, declarationTail_eq hr]
    obtain ⟨room, rfl⟩ : ∃ n, room = n + 1 := ⟨room - 1, by omega⟩
    have hle' := length_comments_le (C.declarator ts).1.2
    have hmore := moreDeclarators_comments room (C.declarator ts).1.2
    by_cases hdef : (mayDefine && (C.declarator ts).2) = true
    · have hne : ahead? (C.declarator ts).1.2 ≠ some .leftBrace := by
        simpa [bodyAhead, hdef] using hb
      simp only [if_pos hdef]
      refine .step (reads_comes_of_ne hne) ?_
      simp only [Bool.false_eq_true, if_false]
      have hwhole := @continues_declarators probes (room + 1)
        ([] ++ [Item.token (some .type) t] ++ (C.declarator ts).1.1 ++ (comments (C.declarator ts).1.2).1)
        (comments (C.declarator ts).1.2).2 (by omega)
      rw [← hmore]
      simpa using hwhole
    · simp only [if_neg hdef]
      refine .step (.pure false _) ?_
      simp only [Bool.false_eq_true, if_false]
      have hwhole := @continues_declarators probes (room + 1)
        ([] ++ [Item.token (some .type) t] ++ (C.declarator ts).1.1) (C.declarator ts).1.2 (by omega)
      simpa using hwhole

/-- A script may look at the token before it. -/
lemma Runs.current {f : Option Terminal → Script α} {ts : List Token} {Q : Recorder → α → Recorder → Prop}
    (hc : comments ts = ([], ts)) (h : Runs probes (f (ahead? ts)) ts Q) :
    Runs probes (Script.current >>= f) ts Q := by
  intro r ht hv
  obtain ⟨a, r', hf, hle, hq⟩ := h r ht hv
  have hcurrent : Yields probes Script.current r (ahead? ts) r :=
    .of_exec fun _ => congrArg Except.ok (current_of_comments hv hc)
  exact ⟨a, r', hcurrent.bind hf hle, hle, hq⟩

/-- A return statement is noted as it is read. -/
lemma reads_returnStatement {room : Nat} {t : Token} {ts : List Token} (hr : ts.length < room)
    (hc : comments (t :: ts) = ([], t :: ts)) :
    Reads probes (do let _ ← returnStatement room; return (none : Option BlockMark)) (t :: ts) none
      ([(C.returnStatement t ts).1], (C.returnStatement t ts).2) := by
  have htake := @reads_take probes none (t :: ts)
  have hle := length_comments_le ts
  rw [take_of_comments hc] at htake
  rw [returnStatement, C.returnStatement]
  dsimp only
  rw [ahead?_comments]
  split
  · rename_i ha
    have hbody := htake.next ((reads_comes_of_eq ha).bind (f := fun b => do
      unless b do let _ ← expression room
      expect .semicolon none) (reads_expect .semicolon none _))
    exact (reads_node hc hbody .returnStatement none (.pure none _)).of_eq (by simp)
  · rename_i ha
    have hbody := htake.next ((reads_comes_of_ne ha).bind (f := fun b => do
      unless b do let _ ← expression room
      expect .semicolon none) ((readsOperand_expression (by omega)).next (reads_expect .semicolon none _)))
    exact (reads_node hc hbody .returnStatement none (.pure none _)).of_eq (by simp [OperandReading.items])

/-- An expression statement is noted as it is read. -/
lemma reads_expressionStatement {room : Nat} {ts : List Token} (hr : ts.length < room)
    (hc : comments ts = ([], ts)) :
    Reads probes (do
        let _ ← node .expressionStatement none do
          let _ ← expression room
          expect .semicolon none
        return (none : Option BlockMark)) ts none
      ([(C.expressionStatement ts).1], (C.expressionStatement ts).2) := by
  have hbody := (@readsOperand_expression probes _ _ hr).next (reads_expect .semicolon none _)
  exact reads_node hc hbody .expressionStatement none (.pure none _)

/-- A node of one token. -/
lemma reads_single {t : Token} {ts : List Token} (hc : comments (t :: ts) = ([], t :: ts)) (rule : Rule) :
    Reads probes (do let _ ← node rule none (take none); return (none : Option BlockMark)) (t :: ts) none
      ([.node none rule [.token none t]], ts) := by
  have htake := @reads_take probes none (t :: ts)
  rw [take_of_comments hc] at htake
  exact reads_node hc htake rule none (.pure none _)

/-- The script of a statement reads what its reader reads. -/
lemma runs_statement {room : Nat} {t : Token} {ts : List Token} (hr : (t :: ts).length < room)
    (hc : comments (t :: ts) = ([], t :: ts)) : Runs probes (statement room) (t :: ts)
      (PieceNoted probes (C.statement t ts).1 (C.statement t ts).2) := by
  have hlt : ts.length < room := Nat.lt_of_succ_lt hr
  refine .current hc ?_
  rw [ahead?_of_comments hc, C.statement]
  cases hk : t.kind with
  | primitiveType => exact runs_declaration false hlt hc
  | leftBrace => exact runs_compound hc
  | returnKeyword => exact (reads_returnStatement hlt hc).piece
  | semicolon => exact (reads_single hc .expressionStatement).piece
  | unknown =>
    have htake := @reads_take probes none (t :: ts)
    rw [take_of_comments hc] at htake
    exact Reads.piece (htake.next (.pure none _))
  | identifier | numberLiteral | quote | leftParen => exact (reads_expressionStatement hr hc).piece
  | _ => exact (reads_single hc .error).piece

/-- The script of what stands at the top of a document reads what its reader reads. -/
lemma runs_topLevel {room : Nat} {t : Token} {ts : List Token} (hr : (t :: ts).length < room)
    (hc : comments (t :: ts) = ([], t :: ts)) : Runs probes (topLevel room) (t :: ts)
      (PieceNoted probes (C.topLevel t ts).1 (C.topLevel t ts).2) := by
  rw [topLevel, comes, bind_assoc, C.topLevel]
  simp only [pure_bind]
  refine .current hc ?_
  rw [ahead?_of_comments hc]
  by_cases hk : t.kind = .primitiveType
  · simp only [hk, decide_true, if_true]
    exact runs_declaration true (Nat.lt_of_succ_lt hr) hc
  · simp only [Option.some.injEq, hk, decide_false, Bool.false_eq_true, if_false]
    exact runs_statement hr hc

end Script

end Reparse.C
