import Reparse.Proofs.Bounds
import Reparse.Proofs.Recording

/-!
# Scripts and readers

A script reads the tokens that its recorder sees as the reader of the same name does, and notes the
items of the reading (`Script.Reads`): here for single tokens, nodes and lists (`reads_parenthesized`).
What it leaves is the same under every numbering that tells the events apart (`Script.Yields`).
-/

namespace Reparse.C

open Event Item Recorder

variable {number : Nat → Nat} {probes : Nat → Probe}

namespace Script

variable {α β : Type}

/-- A script that only answers changes nothing. -/
@[simp]
lemma exec_pure (a : α) (r : Recorder) : (pure a : Script α).exec number probes r = .ok (a, r) := rfl

/-- Scripts are run one after the other. -/
lemma exec_bind (p : Script α) (f : α → Script β) (r : Recorder) :
    (p >>= f).exec number probes r =
      (p.exec number probes r).bind fun x => (f x.1).exec number probes x.2 := by
  show (p.bind f).exec number probes r = _
  induction p generalizing r with
  | done a => rfl
  | ask q more ih =>
    rw [bind, exec, exec]
    cases q.perform number probes r with
    | error misuse => rfl
    | ok x => exact ih x.1 x.2

/-- After a script that ends the next one is run. -/
lemma exec_bind_of_ok {p : Script α} {r r' : Recorder} {a : α}
    (h : p.exec number probes r = .ok (a, r')) (f : α → Script β) :
    (p >>= f).exec number probes r = (f a).exec number probes r' := by
  rw [exec_bind, h]
  rfl

instance : LawfulMonad Script := by
  have assoc : ∀ {α β γ : Type} (p : Script α) (f : α → Script β) (g : β → Script γ),
      (p.bind f).bind g = p.bind fun a => (f a).bind g := by
    intro α β γ p f g
    induction p with
    | done a => rfl
    | ask q more ih => exact congrArg (ask q) (funext ih)
  refine .mk' Script ?_ (fun a f => rfl) assoc
  intro α p
  show p.bind done = p
  induction p with
  | done a => rfl
  | ask q more ih => exact congrArg (ask q) (funext ih)

/-- To open a marker is a request. -/
lemma exec_start (r : Recorder) : start.exec number probes r = .ok (r.start number) := rfl

/-- To take a token is a request. -/
lemma exec_bump (field : Option Field) (r : Recorder) :
    (bump field).exec number probes r = .ok (r.bump number probes field) := rfl

/-- To peek at a kind is a request. -/
lemma exec_peek (r : Recorder) : peek.exec number probes r = .ok (r.peek, r) := rfl

/-- To put a marker before a completed node is a request. -/
lemma exec_precede (completed : Nat) (r : Recorder) :
    (precede completed).exec number probes r = r.precede number completed := by
  show (r.precede number completed).bind _ = _
  cases r.precede number completed <;> rfl

/-- To set a field is a request. -/
lemma exec_setField (event : Nat) (field : Field) (r : Recorder) :
    (setField event field).exec number probes r = .ok ((), r.setField event field) := rfl

/-- To put a marker before a token is a request. -/
lemma exec_precedeToken (event : Nat) (r : Recorder) :
    (precedeToken event).exec number probes r = r.precedeToken number event := by
  show (r.precedeToken number event).bind _ = _
  cases r.precedeToken number event <;> rfl

/-- To complete a node is a request. -/
lemma exec_complete (marker : Nat) (rule : Rule) (field : Option Field) (r : Recorder) :
    (complete marker rule field).exec number probes r = (r.complete marker rule field).map ((), ·) := by
  show ((r.complete marker rule field).map _).bind _ = _
  cases r.complete marker rule field <;> rfl

/-- To abandon a marker is a request. -/
lemma exec_abandon (marker : Nat) (r : Recorder) :
    (abandon marker).exec number probes r = (r.abandon marker).map ((), ·) := by
  show ((r.abandon marker).map _).bind _ = _
  cases r.abandon marker <;> rfl

/-- Whether a script ends with `a` and leaves `r'`, under every numbering that numbers the events of `r'`
by their places. -/
def Yields (probes : Nat → Probe) (p : Script α) (r : Recorder) (a : α) (r' : Recorder) : Prop :=
  ∀ number, r'.Numbered number → p.exec number probes r = .ok (a, r')

namespace Yields

variable {p : Script α} {f : α → Script β} {r r₁ r₂ : Recorder} {a : α} {b : β} {events : List Event}

/-- What a script leaves if each event has a number of its own. -/
lemma exec_id (h : Yields probes p r a r₁) : p.exec id probes r = .ok (a, r₁) := h id (numbered_id _)

/-- What does not depend on how events are numbered. -/
lemma of_exec (h : ∀ number, p.exec number probes r = .ok (a, r₁)) : Yields probes p r a r₁ :=
  fun number _ => h number

/-- A script that only answers ends with its answer. -/
lemma pure (a : α) (r : Recorder) : Yields probes (Pure.pure a) r a r := fun _ _ => rfl

/-- Scripts that follow one another, of which the second one adds events to those of the first. -/
lemma bind (h : Yields probes p r a r₁) (h' : Yields probes (f a) r₁ b r₂)
    (hle : r₁.events.length ≤ r₂.events.length) : Yields probes (p >>= f) r b r₂ := fun number hnumber =>
  (exec_bind_of_ok (h number (hnumber.of_length_le hle)) f).trans (h' number hnumber)

/-- A script may end with something made of what another one ends with. -/
lemma map (h : Yields probes p r a r₁) (f : α → β) :
    Yields probes (p >>= fun a => Pure.pure (f a)) r (f a) r₁ :=
  fun number hnumber => exec_bind_of_ok (h number hnumber) _

end Yields

/-- A script that opens a marker ends with its number. -/
lemma yields_start {r r₁ r₂ : Recorder}
    (h : ∀ number, r₂.Numbered number → r.start number = (r₁.events.length, r₂)) :
    Yields probes start r r₁.events.length r₂ :=
  fun number hnumber => (exec_start r).trans (congrArg Except.ok (h number hnumber))

/-- A script that completes a node ends. -/
lemma yields_complete {marker : Nat} {rule : Rule} {field : Option Field} {r r' : Recorder}
    (h : r.complete marker rule field = .ok r') : Yields probes (complete marker rule field) r () r' :=
  .of_exec fun _ => by
    rw [exec_complete, h]
    rfl

/-- A script that abandons a marker ends. -/
lemma yields_abandon {marker : Nat} {r r' : Recorder} (h : r.abandon marker = .ok r') :
    Yields probes (abandon marker) r () r' :=
  .of_exec fun _ => by
    rw [exec_abandon, h]
    rfl

/-- Whether a script ends with `a` and reads `ts` as a reader does. -/
def Reads (probes : Nat → Probe) (p : Script α) (ts : List Token) (a : α) (rd : Reading) : Prop :=
  ∀ r : Recorder, r.Tame → r.view probes = ts → ∃ r' events, Yields probes p r a r' ∧
    Appends r r' events ∧ r'.view probes = rd.2 ∧ NotesAll events rd.1

namespace Reads

/-- A script that only answers reads nothing. -/
lemma pure (a : α) (ts : List Token) : Reads probes (Pure.pure a) ts a ([], ts) :=
  fun r _ hv => ⟨r, [], .pure a r, .refl r, hv, .nil⟩

/-- Scripts that follow one another read what both read. -/
lemma bind {p : Script α} {f : α → Script β} {ts : List Token} {a : α} {b : β} {rd rd' : Reading}
    (h : Reads probes p ts a rd) (h' : Reads probes (f a) rd.2 b rd') :
    Reads probes (p >>= f) ts b (rd.1 ++ rd'.1, rd'.2) := by
  intro r ht hv
  obtain ⟨r₁, e₁, hp, hadds, hv₁, hn⟩ := h r ht hv
  obtain ⟨r₂, e₂, hf, hadds', hv₂, hn'⟩ := h' r₁ (hadds.tame ht hn.inside) hv₁
  exact ⟨r₂, e₁ ++ e₂, hp.bind hf hadds'.length_le, hadds.trans hadds', hv₂, hn'.append hn⟩

/-- Scripts read one after the other. -/
lemma next {p : Script α} {q : Script β} {ts : List Token} {a : α} {b : β} {rd rd' : Reading}
    (h : Reads probes p ts a rd) (h' : Reads probes q rd.2 b rd') :
    Reads probes (p >>= fun _ => q) ts b (rd.1 ++ rd'.1, rd'.2) := h.bind h'

/-- A script may be put together the other way. -/
lemma assoc {γ : Type} {p : Script α} {f : α → Script β} {g : β → Script γ} {ts : List Token} {c : γ}
    {rd : Reading} (h : Reads probes (p >>= f >>= g) ts c rd) :
    Reads probes (p >>= fun a => f a >>= g) ts c rd := by rwa [bind_assoc] at h

/-- Scripts that follow one another, as one reading. -/
lemma seq {p : Script α} {f : α → Script β} {ts : List Token} {a : α} {b : β} {rd rd' out : Reading}
    (h : Reads probes p ts a rd) (h' : Reads probes (f a) rd.2 b rd')
    (he : (rd.1 ++ rd'.1, rd'.2) = out) : Reads probes (p >>= f) ts b out := he ▸ h.bind h'

/-- What a script reads may be stated in another way. -/
lemma of_eq {p : Script α} {ts : List Token} {a : α} {rd out : Reading} (h : Reads probes p ts a rd)
    (he : rd = out) : Reads probes p ts a out := he ▸ h

/-- What a script ends with may be stated in another way. -/
lemma answer {p : Script α} {ts : List Token} {a b : α} {rd : Reading} (h : Reads probes p ts a rd)
    (he : a = b) : Reads probes p ts b rd := he ▸ h

end Reads

/-! ## Single tokens -/

/-- To look at the next token reads the comments before it. -/
lemma reads_current (ts : List Token) : Reads probes current ts (ahead? ts) (comments ts) := by
  intro r ht hv
  obtain ⟨r', hcurrent, hadds, hview, -⟩ := @current_spec probes r
  rw [hv] at hcurrent hadds hview
  exact ⟨r', _, .of_exec fun _ => congrArg Except.ok hcurrent, hadds, hview, notesAll_comments ts⟩

/-- A script that takes a token ends. -/
lemma yields_take {field : Option Field} {place : Nat} {r r' : Recorder}
    (h : ∀ number, r'.Numbered number → r.bump number probes field = (place, r')) :
    Yields probes (take field) r () r' := fun number hnumber => by
  show (Except.ok (r.bump number probes field)).bind _ = _
  rw [h number hnumber]
  rfl

/-- Where no comment comes next, the event of the token that is taken is the only one. -/
lemma exec_take {t : Token} {ts : List Token} (hc : comments (t :: ts) = ([], t :: ts))
    (field : Option Field) {r : Recorder} (hv : r.view probes = t :: ts) : ∃ r',
    Yields probes (take field) r () r' ∧ Appends r r' [.token field t t.isComment] ∧
      r'.view probes = ts := by
  obtain ⟨r', events, hbump, hadds, hrest⟩ := @bump_spec probes r field
  rw [hv, commentEvents_eq_nil hc] at hadds
  rw [hv, hc] at hrest
  obtain ⟨rfl, hview⟩ := hrest
  exact ⟨r', yields_take hbump, hadds, hview⟩

/-- To take a token reads it. -/
lemma reads_take (field : Option Field) (ts : List Token) :
    Reads probes (take field) ts () (C.take field ts) := by
  intro r ht hv
  obtain ⟨r', events, hbump, hadds, hrest⟩ := @bump_spec probes r field
  rw [hv] at hadds hrest
  refine ⟨r', _, yields_take hbump, hadds, ?_⟩
  rw [C.take]
  cases hc : comments ts with
  | mk before pending =>
    have hbefore := notesAll_comments ts
    rw [hc] at hrest hbefore
    cases pending with
    | nil =>
      obtain ⟨rfl, hview⟩ := hrest
      exact ⟨hview, by rwa [List.append_nil]⟩
    | cons t rest =>
      obtain ⟨rfl, hview⟩ := hrest
      exact ⟨hview, (NotesAll.single .token).append hbefore⟩

/-- A missing token is noted and nothing is read. -/
lemma reads_missing (kind : Terminal) (field : Option Field) (ts : List Token) :
    Reads probes (missing kind field) ts () ([.missing field kind], ts) :=
  fun r _ hv => ⟨r.push (.missing field kind), _, .of_exec fun _ => rfl, ⟨rfl, rfl, rfl, rfl⟩, hv,
    .single .missing⟩

/-- Where a token is due, the script that asks for it says so. -/
lemma reads_comes_of_eq {kind : Terminal} {ts : List Token} (h : ahead? ts = some kind) :
    Reads probes (comes kind) ts true (comments ts) :=
  Reads.seq (reads_current ts) ((Reads.pure _ _).answer (decide_eq_true h)) (by rw [List.append_nil])

/-- Where another token is due, the script that asks for it says so. -/
lemma reads_comes_of_ne {kind : Terminal} {ts : List Token} (h : ahead? ts ≠ some kind) :
    Reads probes (comes kind) ts false (comments ts) :=
  Reads.seq (reads_current ts) ((Reads.pure _ _).answer (decide_eq_false h)) (by rw [List.append_nil])

/-- Comments that were taken may be taken with the next token. -/
lemma take_comments (field : Option Field) (ts : List Token) :
    ((comments ts).1 ++ (C.take field (comments ts).2).1, (C.take field (comments ts).2).2) =
      C.take field ts := by
  rw [C.take, C.take, comments_of_commentAhead (commentAhead_comments ts)]
  cases comments ts with
  | mk before pending => cases pending <;> simp

/-- A token that need not be there and is due is read. -/
lemma reads_takeIf_of_eq {kind : Terminal} (field : Option Field) {ts : List Token}
    (h : ahead? ts = some kind) : Reads probes (takeIf kind field) ts true (C.takeIf kind field ts) := by
  rw [C.takeIf, if_pos h]
  exact Reads.seq (reads_comes_of_eq h) ((reads_take field _).bind (.pure true _))
    (by rw [List.append_nil]; exact take_comments field ts)

/-- Where another token is due, the one that need not be there is not read. -/
lemma reads_takeIf_of_ne {kind : Terminal} (field : Option Field) {ts : List Token}
    (h : ahead? ts ≠ some kind) : Reads probes (takeIf kind field) ts false (C.takeIf kind field ts) := by
  rw [C.takeIf, if_neg h]
  exact Reads.seq (reads_comes_of_ne h) (.pure false _) (by rw [List.append_nil])

/-- The next token is taken if it is of the given kind, whatever is made of that. -/
lemma reads_takeIf {more : Script α} (kind : Terminal) (field : Option Field) {ts : List Token} {a : α}
    {rd : Reading} (h : Reads probes more (C.takeIf kind field ts).2 a rd) :
    Reads probes (takeIf kind field >>= fun _ => more) ts a
      ((C.takeIf kind field ts).1 ++ rd.1, rd.2) := by
  by_cases hk : ahead? ts = some kind
  · exact (reads_takeIf_of_eq field hk).bind h
  · exact (reads_takeIf_of_ne field hk).bind h

/-- A token that is expected is read, or it is missing. -/
lemma reads_expect (kind : Terminal) (field : Option Field) (ts : List Token) :
    Reads probes (expect kind field) ts () (C.expect kind field ts) := by
  rw [C.expect]
  by_cases h : ahead? ts = some kind
  · rw [if_pos h]
    exact Reads.seq (reads_comes_of_eq h) (reads_take field _) (take_comments field ts)
  · rw [if_neg h]
    exact Reads.seq (reads_comes_of_ne h) (reads_missing kind field _) rfl

/-! ## Nodes and lists -/

/-- A node is noted where its body reads its parts. -/
lemma exec_node {body : Script Unit} {ts us : List Token} {before : List Item} {inner : Reading}
    (hc : comments ts = (before, us)) (h : Reads probes body us () inner) (rule : Rule)
    (field : Option Field) {r : Recorder} (ht : r.Tame) (hv : r.view probes = ts) : ∃ r' events,
    Yields probes (node rule field body) r (r.events.length + (commentEvents ts).length) r' ∧
    Appends r r' (commentEvents ts ++ events) ∧ r'.view probes = inner.2 ∧
    Notes events (.node field rule inner.1) 0 := by
  obtain ⟨r₁, r₂, hstart, hadds, he, ho, hb, hm, hview⟩ := @start_spec probes r
  rw [hv] at hadds hview
  rw [hc] at hview
  have ht₁ := hadds.tame ht (notesAll_comments ts).inside
  obtain ⟨r₃, events, hbody, hadds', hview', hn⟩ := h r₂ (tame_of_start ht₁ he ho hb hm) hview
  have he₃ : r₃.events = r₁.events ++ .start none none none :: events := by
    rw [hadds'.events, he, List.append_assoc]
    rfl
  have hcomplete := complete_spec he₃ (hadds'.opened.trans ho) rule field
  rw [Option.or_none] at hcomplete
  have hlength : r₁.events.length = r.events.length + (commentEvents ts).length := by
    rw [hadds.events, List.length_append]
  refine ⟨{ r₃ with
    events := r₁.events ++ .start (some rule) field none :: (events ++ [Event.finish])
    opened := r₁.opened }, _, fun number hnumber => ?_,
    hadds.trans ⟨rfl, rfl, hadds'.blocks.trans hb, hadds'.bookmark.trans hm⟩, hview', .node hn⟩
  -- completing the marker adds the end of the node to the events of its body
  have hnumber₃ : r₃.Numbered number := by
    refine hnumber.of_length_le ?_
    simp only [he₃, List.length_append, List.length_cons]
    omega
  have hnumber₂ := hadds'.numbered hnumber₃
  rw [node, exec_bind_of_ok (yields_start hstart number hnumber₂),
    exec_bind_of_ok (hbody number hnumber₃), exec_bind_of_ok (yields_complete hcomplete number hnumber),
    ← hlength]
  rfl

/-- What is read after a node follows it. -/
lemma reads_node {body : Script Unit} {more : Script α} {ts us : List Token} {before : List Item} {b : α}
    {inner rd : Reading} (hc : comments ts = (before, us)) (h : Reads probes body us () inner)
    (rule : Rule) (field : Option Field) (h' : Reads probes more inner.2 b rd) :
    Reads probes (node rule field body >>= fun _ => more) ts b
      (before ++ .node field rule inner.1 :: rd.1, rd.2) := by
  intro r ht hv
  obtain ⟨r₁, events, hnode, hadds, hview, hn⟩ := exec_node hc h rule field ht hv
  have hnotes := (NotesAll.single hn).append (notesAll_comments ts)
  obtain ⟨r₂, events', hmore, hadds', hview', hn'⟩ := h' r₁ (hadds.tame ht hnotes.inside) hview
  refine ⟨r₂, _, hnode.bind hmore hadds'.length_le, hadds.trans hadds', hview', ?_⟩
  have hall := hn'.append hnotes
  rwa [← List.append_cons, hc] at hall

section

variable {first : List Terminal} {element : Script Bool} {reader : List Token → Reading × Bool}

/-- The token after the comments is the one ahead. -/
lemma ahead?_of_comments {ts rest : List Token} {before : List Item} {t : Token}
    (h : comments ts = (before, t :: rest)) : ahead? ts = some t.kind := by
  show (comments ts).2.head?.map (·.kind) = _
  rw [h]
  rfl

/-- With nothing after the comments there is no token ahead. -/
lemma ahead?_of_comments_nil {ts : List Token} {before : List Item} (h : comments ts = (before, [])) :
    ahead? ts = none := by
  show (comments ts).2.head?.map (·.kind) = _
  rw [h]
  rfl

/-- After the comments at the front none is left. -/
lemma comments_rest {ts rest : List Token} {before : List Item} (h : comments ts = (before, rest)) :
    comments rest = ([], rest) := by
  have hno := commentAhead_comments ts
  rw [h] at hno
  exact comments_of_commentAhead hno

/-- What follows an element is read as in a list. -/
lemma reads_afterElement {more : Script Unit} {next : List Token → Reading} {ts : List Token}
    (h : ∀ us, us.length ≤ ts.length → Reads probes more us () (next us)) :
    Reads probes (do
      if ← takeIf .comma none then more
      else if (← current).any (· ∈ first) then
        missing .comma none
        more) ts ()
      (match comments ts with
      | (after, []) => (after, [])
      | (after, u :: rest) =>
        if u.kind = .comma then (after ++ .token none u :: (next rest).1, (next rest).2)
        else if u.kind ∈ first then
          (after ++ .missing none .comma :: (next (u :: rest)).1, (next (u :: rest)).2)
        else (after, u :: rest)) := by
  cases hc : comments ts with
  | mk after pending =>
    cases pending with
    | nil =>
      have hahead := ahead?_of_comments_nil hc
      have htake := @reads_takeIf_of_ne probes .comma none ts
        (by rw [hahead]; exact Option.some_ne_none _ |>.symm)
      rw [C.takeIf, hahead, if_neg (by simp), hc] at htake
      exact htake.seq ((reads_current []).bind (.pure () _)) (by simp [comments])
    | cons u rest =>
      have hlt := length_comments_cons_le hc
      have hrest := comments_rest hc
      have hahead := ahead?_of_comments hc
      dsimp only
      by_cases hcomma : u.kind = .comma
      · rw [if_pos hcomma]
        have htake := @reads_takeIf_of_eq probes .comma none _
          (hahead.trans (congrArg some hcomma))
        rw [C.takeIf, if_pos (hahead.trans (congrArg some hcomma)), C.take, hc] at htake
        exact htake.seq (h rest (Nat.le_of_lt hlt)) (by simp)
      · rw [if_neg hcomma]
        have hne : ahead? ts ≠ some .comma := by
          rw [hahead]
          simpa using hcomma
        have htake := @reads_takeIf_of_ne probes _ none _ hne
        rw [C.takeIf, if_neg hne, hc] at htake
        have hcurrent := @reads_current probes (u :: rest)
        rw [ahead?_of_comments hrest, hrest] at hcurrent
        by_cases hfirst : u.kind ∈ first
        · rw [if_pos hfirst]
          exact htake.seq (hcurrent.bind
            (by rw [if_pos (by simpa using hfirst)]
                exact (reads_missing .comma none _).bind (h (u :: rest) hlt))) rfl
        · rw [if_neg hfirst]
          exact htake.seq (hcurrent.bind
            (by rw [if_neg (by simpa using hfirst)]; exact .pure () _)) (by simp)

/-- The elements of a list are read as their reader says. -/
lemma reads_elements (hk : ∀ us, (reader us).1.Keeps us) (count : Nat) {ts : List Token}
    (h : ∀ us, us.length ≤ ts.length → comments us = ([], us) →
      Reads probes element us (reader us).2 (reader us).1) :
    Reads probes (elements first element count) ts () (C.elements first reader count ts) := by
  induction count generalizing ts with
  | zero => exact .pure () ts
  | succ count ih =>
    rw [elements, C.elements]
    cases hc : comments ts with
    | mk before pending =>
      have hcurrent := @reads_current probes ts
      cases pending with
      | nil =>
        have hahead := ahead?_of_comments_nil hc
        rw [hahead, hc] at hcurrent
        exact hcurrent.seq (.pure () _) (by rw [List.append_nil])
      | cons t rest =>
        have hlt := length_comments_cons_le hc
        have hrest := comments_rest hc
        have hnext : ∀ us, us.length ≤ ts.length →
            Reads probes (elements first element count) us () (C.elements first reader count us) :=
          fun us hus => ih fun vs hvs => h vs (Nat.le_trans hvs hus)
        rw [ahead?_of_comments hc, hc] at hcurrent
        dsimp only
        by_cases hclose : t.kind = .rightParen
        · rw [if_pos hclose]
          exact hcurrent.seq (by rw [if_pos (.inl (congrArg some hclose))]; exact .pure () _)
            (by rw [List.append_nil])
        rw [if_neg hclose]
        have hnone : ¬ (some t.kind = some .rightParen ∨ some t.kind = none) := by simp [hclose]
        by_cases hcomma : t.kind = .comma
        · -- a comma in place of an element is an error
          rw [if_pos hcomma]
          have herror := @reads_take probes none (t :: rest)
          rw [C.take, hrest] at herror
          have hnode := reads_node hrest herror .error none (hnext rest (Nat.le_of_lt hlt))
          exact hcurrent.seq (by rw [if_neg hnone, if_pos (congrArg some hcomma)]; exact hnode) rfl
        rw [if_neg hcomma]
        have hnot : some t.kind ≠ some .comma := by simp [hcomma]
        have helement := h (t :: rest) hlt hrest
        have hkeeps := (hk (t :: rest)).length_le
        generalize reader (t :: rest) = read at helement hkeeps ⊢
        obtain ⟨⟨items, rest'⟩, isElement⟩ := read
        dsimp only [List.length_cons] at helement hkeeps ⊢
        cases isElement with
        | false =>
          rw [if_neg Bool.false_ne_true]
          exact hcurrent.seq (by rw [if_neg hnone, if_neg hnot]; exact helement.bind (.pure () _))
            (by rw [List.append_nil])
        | true =>
          rw [if_pos rfl]
          have hafter := @reads_afterElement probes first _ _ _ fun us (hus : us.length ≤ rest'.length) =>
            hnext us (by omega)
          refine Reads.of_eq (hcurrent.bind
            (by rw [if_neg hnone, if_neg hnot]; exact helement.bind hafter)) ?_
          dsimp only
          cases hc' : comments rest' with
          | mk after pending' =>
            cases pending' with
            | nil => simp
            | cons u rest'' =>
              dsimp only
              split
              · simp
              · split <;> simp

/-- A list in parentheses is read as its reader says, where there is room for its tokens. -/
lemma reads_parenthesized (hk : Consumes reader) {room : Nat} {ts : List Token}
    (hr : (C.take none ts).2.length < room)
    (h : ∀ us, us.length ≤ (C.take none ts).2.length → comments us = ([], us) →
      Reads probes element us (reader us).2 (reader us).1) :
    Reads probes (parenthesized room first element) ts () (C.parenthesized first reader ts) := by
  rw [parenthesized_eq hk hr]
  exact (reads_take none ts).seq ((reads_elements hk.keeps room h).bind (reads_expect .rightParen none _))
    (by dsimp only; rw [← List.append_assoc])

end

end Script

end Reparse.C
