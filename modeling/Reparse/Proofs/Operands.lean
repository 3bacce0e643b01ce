import Reparse.Proofs.Scripts

/-!
# Scripts of expressions

A script that reads an operand says where its start is noted, or its token, so that a field or a start
can be given to it later (`ReadsOperand`). An operator after an operand makes another one of it
(`Extends`): the start of the new node is put before a token, to which nothing refers, or noted after
the old node, whose start then points to it (`exec_precede_operandOf`). So scripts of expressions read
what the readers of expressions read (`readsOperand_expression`).
-/

namespace Reparse.C

open Event Item Recorder

variable {number : Nat → Nat} {probes : Nat → Probe}

namespace Script

variable {α : Type}

/-! ## Operands -/

/-- Whether an item may be an operand. -/
def Item.isOperand : Item → Bool
  | .token .. | .node .. => true
  | _ => false

/-- The operand that an item is, whose place is event number `n`. -/
def operandOf (n : Nat) : Item → Operand
  | .token .. => .token n
  | _ => .node n

/-- To set the field of an operand sets that of the event where it begins. -/
lemma setField_operandOf (n : Nat) (i : Item) (field : Field) :
    (operandOf n i).setField field = setField n field := by
  cases i <;> rfl

/-- An item under a field is an operand if it was one. -/
lemma isOperand_under (i : Item) (f : Field) : Item.isOperand (i.under f) = Item.isOperand i := by
  cases i <;> rfl

/-- The field of an item does not change where its operand begins. -/
lemma operandOf_under (n : Nat) (i : Item) (f : Field) : operandOf n (i.under f) = operandOf n i := by
  cases i <;> rfl

/-- Whether a script reads an operand of `ts` as a reader does, and ends with it. -/
def ReadsOperand (probes : Nat → Probe) (p : Script (Option Operand)) (ts : List Token)
    (rd : OperandReading) : Prop :=
  ∀ r : Recorder, r.Tame → r.view probes = ts → ∃ r' before, NotesAll before rd.before ∧
    r'.view probes = rd.rest ∧
    match rd.operand with
    | none => Yields probes p r none r' ∧ Appends r r' before
    | some i => ∃ events anchor, Notes events i anchor ∧ Item.isOperand i = true ∧
      Yields probes p r (some (operandOf (r.events.length + before.length + anchor) i)) r' ∧
      Appends r r' (before ++ events)

/-- To set a field adds no event. -/
lemma length_setField (r : Recorder) (n : Nat) (field : Field) :
    (r.setField n field).events.length = r.events.length := List.length_modify ..

/-- An operand is put under a field by its place. -/
lemma yields_setField (n : Nat) (i : Item) (field : Field) (r : Recorder) :
    Yields probes ((operandOf n i).setField field) r () (r.setField n field) := by
  rw [setField_operandOf]
  exact .of_exec fun _ => exec_setField n field r

/-- An event of what was added last is changed there. -/
lemma modify_added {r r' : Recorder} {events : List Event} (h : Appends r r' events) (anchor : Nat)
    (f : Event → Event) :
    Appends r { r' with events := r'.events.modify (r.events.length + anchor) f } (events.modify anchor f) :=
  ⟨by rw [h.events, modify_append_right], h.opened, h.blocks, h.bookmark⟩

namespace ReadsOperand

variable {p : Script (Option Operand)} {ts : List Token} {rd : OperandReading}

/-- What an operand is read as, whether there is one or not. -/
lemma reads {α : Type} (h : ReadsOperand probes p ts rd) (f : Option Operand → α) {a : α}
    (hf : ∀ o, o.isSome = rd.operand.isSome → f o = a) :
    Reads probes (do return f (← p)) ts a rd.items := by
  intro r ht hv
  obtain ⟨r', before, hbefore, hview, hrest⟩ := h r ht hv
  obtain ⟨items, operand, rest⟩ := rd
  cases operand with
  | none =>
    obtain ⟨hp, hadds⟩ := hrest
    refine ⟨r', before, hf none rfl ▸ hp.map f, hadds, hview, ?_⟩
    rw [OperandReading.items, Option.toList_none, List.append_nil]
    exact hbefore
  | some i =>
    obtain ⟨events, anchor, hn, -, hp, hadds⟩ := hrest
    exact ⟨r', before ++ events, hf (some _) rfl ▸ hp.map f, hadds, hview,
      (NotesAll.single hn).append hbefore⟩

/-- What is read after an operand follows it. -/
lemma next {α : Type} {more : Script α} {a : α} {rd' : Reading} (h : ReadsOperand probes p ts rd)
    (h' : Reads probes more rd.rest a rd') :
    Reads probes (p >>= fun _ => more) ts a (rd.items.1 ++ rd'.1, rd'.2) := by
  have hall := (h.reads (fun _ => ()) fun _ _ => rfl).next h'
  rwa [bind_assoc] at hall

/-- An operand is put under a field, or an identifier is missing there. -/
lemma orMissing (h : ReadsOperand probes p ts rd) (field : Option Field) :
    Reads probes (p >>= Script.orMissing field) ts () (rd.orMissing field) := by
  intro r ht hv
  obtain ⟨r', before, hbefore, hview, hrest⟩ := h r ht hv
  obtain ⟨items, operand, rest⟩ := rd
  cases operand with
  | none =>
    obtain ⟨hp, hadds⟩ := hrest
    have hmissing : Appends r (r'.push (.missing field .identifier))
        (before ++ [Event.missing field .identifier]) :=
      hadds.trans ⟨rfl, rfl, rfl, rfl⟩
    refine ⟨_, _, hp.bind (.of_exec fun _ => rfl) (Appends.length_le ⟨rfl, rfl, rfl, rfl⟩), hmissing,
      hview, ?_⟩
    have hnotes := (NotesAll.single (@Notes.missing field .identifier)).append hbefore
    cases field <;> exact hnotes
  | some i =>
    obtain ⟨events, anchor, hn, -, hp, hadds⟩ := hrest
    cases field with
    | none =>
      exact ⟨r', before ++ events, hp.bind (.pure () r') (Nat.le_refl _), hadds, hview,
        (NotesAll.single hn).append hbefore⟩
    | some f =>
      have hset := modify_added hadds (before.length + anchor) (.under f)
      rw [modify_append_right, ← Nat.add_assoc] at hset
      refine ⟨_, _, hp.bind (yields_setField _ i f r') (Nat.le_of_eq (length_setField r' _ f).symm), hset,
        hview, (NotesAll.single (hn.under f)).append hbefore⟩

end ReadsOperand

/-! ## Operations -/

/-- What is put in where the second part begins comes first in it. -/
lemma insertIdx_append_length {γ : Type} (a b : List γ) (x : γ) :
    (a ++ b).insertIdx a.length x = a ++ x :: b := by
  induction a with
  | nil => rfl
  | cons y a ih => exact congrArg (y :: ·) ih

/-- An open marker at an event that is there leaves a recorder tame. -/
lemma tame_of_opened {r : Recorder} {marker : Nat} {opened : List Nat}
    (h : Recorder.Tame { r with opened := opened }) (ho : r.opened = marker :: opened)
    (hlt : marker < r.events.length) : r.Tame := by
  obtain ⟨hle, hr⟩ := isFree_iff.1 h
  refine isFree_iff.2 ⟨hle, fun x hx => ?_⟩
  rw [references, ho, List.cons_append, List.cons_append, List.mem_cons] at hx
  rcases hx with rfl | hx
  · exact hlt
  · exact hr x hx

/-- The start of a completed node may point to the one that is noted next. -/
lemma inside_modify_within {events : List Event} {anchor : Nat} (h : Inside events)
    (hlt : anchor < events.length) :
    Inside (events.modify anchor (.within (events.length - anchor)) ++ [Event.tombstone]) := by
  intro n x hx
  rw [targets_append] at hx
  rw [List.length_append, List.length_modify, List.length_singleton]
  rcases List.mem_append.1 hx with hx | hx
  · rcases mem_targets_modify hx with hx | hx
    · have := h n x hx
      omega
    · omega
  · cases hx

/-- A marker before a token that was added last takes its place, as nothing refers to the token. -/
lemma exec_precedeToken_last {r₀ r : Recorder} {field : Option Field} {t : Token} (ht : r₀.Tame)
    (hadds : Appends r₀ r [.token field t t.isComment]) :
    Yields probes (Script.precedeToken r₀.events.length) r r₀.events.length { r with
      events := r₀.events ++ Event.tombstone :: [.token field t t.isComment]
      opened := r₀.events.length :: r₀.opened } := by
  intro number hnumber
  have hplace : number r₀.events.length = r₀.events.length := (hnumber.of_append (r := r₀) rfl).next
  obtain ⟨hle, hrefs⟩ := isFree_iff.1 ht
  have hmin : min r₀.events.length r.events.length = r₀.events.length := by
    rw [hadds.events, List.length_append]
    omega
  have hfree : r.isFree r₀.events.length = true := by
    refine isFree_iff.2 ⟨by rwa [hadds.bookmark], fun x hx => hrefs x ?_⟩
    rwa [references, hadds.opened, hadds.blocks, hadds.bookmark, hadds.events, targets_append,
      show targets _ [Event.token field t t.isComment] = [] from rfl, List.append_nil] at hx
  have hinsert : r.events.insertIdx r₀.events.length .tombstone =
      r₀.events ++ Event.tombstone :: [.token field t t.isComment] := by
    rw [hadds.events, insertIdx_append_length]
  rw [exec_precedeToken, Recorder.precedeToken, hmin, if_pos hfree, hinsert, hadds.opened, hplace]

/-- The start of a completed node points to the one that is noted for the node around it. -/
lemma yields_precede {r : Recorder} {completed : Nat} (hlt : completed < r.events.length) :
    Yields probes (Script.precede completed) r r.events.length { r with
      events := (r.events ++ [Event.tombstone]).modify completed (.within (r.events.length - completed))
      opened := r.events.length :: r.opened } := by
  intro number hnumber
  have hplace : number r.events.length = r.events.length := by
    refine (hnumber.of_length_le (r := r) ?_).next
    rw [List.length_modify, List.length_append]
    exact Nat.le_add_right _ _
  rw [exec_precede, Recorder.precede, pushStart_eq hplace]
  exact if_neg fun h => Nat.lt_asymm hlt h.1

/-- A marker before a completed node that was added last comes last, and the start of the node points
to it. -/
lemma appends_precede {r₀ r : Recorder} {events : List Event} {anchor : Nat} 
    (hadds : Appends r₀ r events) (hlt : anchor < events.length) :
    Appends r₀ { r with
      events := (r.events ++ [Event.tombstone]).modify (r₀.events.length + anchor)
        (.within (r.events.length - (r₀.events.length + anchor)))
      opened := r₀.opened }
      (events.modify anchor (.within (events.length - anchor)) ++ [Event.tombstone]) := by
  have hlength : r.events.length = r₀.events.length + events.length := by
    rw [hadds.events, List.length_append]
  have hdistance : r.events.length - (r₀.events.length + anchor) = events.length - anchor := by omega
  refine ⟨?_, rfl, hadds.blocks, hadds.bookmark⟩
  show (r.events ++ [Event.tombstone]).modify _ (.within (r.events.length - _)) = _
  rw [hdistance, hadds.events, List.append_assoc, modify_append_right, modify_append_left hlt]

/-- A marker before an operand that was added last: what follows in the node that it opens comes after
the operand. -/
lemma exec_precede_operandOf {r₀ r : Recorder} {events : List Event} {left : Item} {anchor : Nat}
    (ht : r₀.Tame) (hadds : Appends r₀ r events) (hn : Notes events left anchor)
    (ho : Item.isOperand left = true) : ∃ (r' : Recorder) (front inner : List Event),
    Yields probes (operandOf (r₀.events.length + anchor) left).precede r
      (r₀.events.length + front.length) r' ∧
    Appends r₀ { r' with opened := r₀.opened } (front ++ Event.tombstone :: inner) ∧
    r.events.length ≤ r'.events.length ∧ r'.opened = (r₀.events.length + front.length) :: r₀.opened ∧
    r'.view probes = r.view probes ∧ r'.Tame ∧
    ∀ rule after parts, NotesAll after parts →
      Notes (front ++ .start (some rule) none none :: (inner ++ after ++ [Event.finish]))
        (.node none rule (left :: parts)) front.length := by
  have hlt := hn.anchor_lt
  have hinside := hn.inside
  have hlength : r.events.length = r₀.events.length + events.length := by
    rw [hadds.events, List.length_append]
  cases left with
  | missing field kind => cases ho
  | reused subtree => cases ho
  | token field t =>
    cases hn
    have hadds' : Appends r₀ { r with
        events := r₀.events ++ Event.tombstone :: [.token field t t.isComment]
        opened := r₀.opened } ([] ++ Event.tombstone :: [.token field t t.isComment]) :=
      ⟨rfl, rfl, hadds.blocks, hadds.bookmark⟩
    refine ⟨{ r with
      events := r₀.events ++ Event.tombstone :: [.token field t t.isComment]
      opened := r₀.events.length :: r₀.opened }, [], _, exec_precedeToken_last ht hadds, hadds', ?_, rfl,
      rfl, ?_, ?_⟩
    · simp [hadds.events]
    · exact tame_of_opened (hadds'.tame ht ((Inside.start none none).append hinside)) rfl
        (by simp)
    · intro rule after parts hs
      exact .node (hs.append (.single .token))
  | node field rule parts =>
    have hadds' := appends_precede hadds hlt
    have hopened : r.events.length :: r.opened = (r₀.events.length +
        (events.modify anchor (.within (events.length - anchor))).length) :: r₀.opened := by
      rw [List.length_modify, ← hlength, hadds.opened]
    refine ⟨{ r with
      events := (r.events ++ [Event.tombstone]).modify (r₀.events.length + anchor)
        (.within (r.events.length - (r₀.events.length + anchor)))
      opened := r.events.length :: r.opened },
      events.modify anchor (.within (events.length - anchor)), [], ?_,
      hadds', ?_, hopened, rfl, ?_, ?_⟩
    · rw [List.length_modify, ← hlength]
      exact yields_precede (by omega)
    · simp
    · refine tame_of_opened (hadds'.tame ht (inside_modify_within hinside hlt)) hopened ?_
      show _ < ((r.events ++ [Event.tombstone]).modify _ (.within _)).length
      rw [List.length_modify, List.length_modify, List.length_append, ← hlength, List.length_singleton]
      exact Nat.lt_succ_self _
    · intro rule' after parts' hs
      rw [List.length_modify]
      exact .chain hn rfl hs

/-- A node is noted around the operand that it begins with. -/
lemma exec_around {r₀ r : Recorder} {events : List Event} {left : Item} {anchor : Nat} {body : Script Unit}
    {is : List Item} {rest : List Token} (rule : Rule) (field : Field) (ht : r₀.Tame)
    (hadds : Appends r₀ r events) (hn : Notes events left anchor) (ho : Item.isOperand left = true)
    (hbody : Reads probes body (r.view probes) () (is, rest)) : ∃ r' events' anchor',
    Yields probes (around rule field (operandOf (r₀.events.length + anchor) left) body) r
      (r₀.events.length + anchor') r' ∧ r.events.length ≤ r'.events.length ∧
    Appends r₀ r' events' ∧ r'.view probes = rest ∧
    Notes events' (.node none rule (left.under field :: is)) anchor' := by
  have hset : Appends r₀ (r.setField (r₀.events.length + anchor) field) _ :=
    modify_added hadds anchor (.under field)
  obtain ⟨r₁, front, inner, hprecede, hadds₁, hle, hopened, hview₁, ht₁, hnote⟩ :=
    @exec_precede_operandOf probes _ _ _ _ _ ht hset (hn.under field) (by rw [isOperand_under, ho])
  rw [operandOf_under] at hprecede
  obtain ⟨r₂, after, hbody, hadds₂, hview₂, hafter⟩ := hbody r₁ ht₁ hview₁
  have hevents : r₂.events = (r₀.events ++ front) ++ .start none none none :: (inner ++ after) := by
    rw [hadds₂.events, hadds₁.events, List.append_assoc, List.append_assoc, List.append_assoc]
    rfl
  have hcomplete := complete_spec hevents
    (by rw [hadds₂.opened, hopened, List.length_append]) rule none
  rw [List.length_append] at hcomplete
  have hlonger : r₂.events.length ≤
      (r₀.events ++ front ++
        Event.start (some rule) none none :: (inner ++ after ++ [Event.finish])).length := by
    simp only [hevents, List.length_append, List.length_cons]
    omega
  refine ⟨{ r₂ with
    events := (r₀.events ++ front) ++ .start (some rule) none none :: (inner ++ after ++ [Event.finish])
    opened := r₀.opened },
    front ++ .start (some rule) none none :: (inner ++ after ++ [Event.finish]), front.length,
    fun number hnumber => ?_, ?_, ⟨List.append_assoc .., rfl, hadds₂.blocks.trans hadds₁.blocks,
      hadds₂.bookmark.trans hadds₁.bookmark⟩, hview₂, hnote rule after is hafter⟩
  · have hnumber₂ := hnumber.of_length_le (r := r₂) hlonger
    rw [around, setField_operandOf, exec_bind_of_ok (exec_setField _ _ r),
      exec_bind_of_ok (hprecede number (hadds₂.numbered hnumber₂)), exec_bind_of_ok (hbody number hnumber₂),
      exec_bind_of_ok (yields_complete hcomplete number hnumber)]
    rfl
  · rw [length_setField] at hle
    exact Nat.le_trans (Nat.le_trans hle hadds₂.length_le) hlonger

/-- Whether a script that goes on from the operand `left`, which was added last, reads `ts` so that the
operand becomes another one. -/
def Extends (probes : Nat → Probe) (f : Operand → Script α) (wrap : Operand → α) (left : Item)
    (ts : List Token) (out : Item) (rest : List Token) : Prop :=
  ∀ (r₀ r : Recorder) (events : List Event) (anchor : Nat), r₀.Tame → Appends r₀ r events →
    Notes events left anchor → Item.isOperand left = true → r.view probes = ts →
    ∃ r' events' anchor', Yields probes (f (operandOf (r₀.events.length + anchor) left)) r
        (wrap (operandOf (r₀.events.length + anchor') out)) r' ∧ r.events.length ≤ r'.events.length ∧
      Appends r₀ r' events' ∧ r'.view probes = rest ∧ Notes events' out anchor' ∧
      Item.isOperand out = true

namespace Extends

variable {left out out' : Item} {ts rest rest' : List Token} {wrap : Operand → α}

/-- A script may leave an operand as it is. -/
lemma pure (wrap : Operand → α) (left : Item) (ts : List Token) :
    Extends probes (fun o => Pure.pure (wrap o)) wrap left ts left ts :=
  fun _ r _ _ _ hadds hn ho hv => ⟨_, _, _, .pure _ r, Nat.le_refl _, hadds, hv, hn, ho⟩

/-- An operand may be extended in two parts. -/
lemma bind {f : Operand → Script Operand} {g : Operand → Script α}
    (h : Extends probes f (·) left ts out rest) (h' : Extends probes g wrap out rest out' rest') :
    Extends probes (fun o => f o >>= g) wrap left ts out' rest' := by
  intro r₀ r events anchor ht hadds hn ho hv
  obtain ⟨r₁, e₁, a₁, hf, hle₁, hadds₁, hv₁, hn₁, ho₁⟩ := h _ _ _ _ ht hadds hn ho hv
  obtain ⟨r₂, e₂, a₂, hg, hle₂, hrest⟩ := h' _ _ _ _ ht hadds₁ hn₁ ho₁ hv₁
  exact ⟨r₂, e₂, a₂, hf.bind hg hle₂, Nat.le_trans hle₁ hle₂, hrest⟩

/-- A script may look at the next token before it goes on from an operand. -/
lemma peek {f : Option Terminal → Operand → Script α}
    (h : Extends probes (f (ahead? ts)) wrap left ts out rest) :
    Extends probes (fun o => Script.peek >>= fun kind => f kind o) wrap left ts out rest := by
  intro r₀ r events anchor ht hadds hn ho hv
  have hpeek : Yields probes Script.peek r (ahead? ts) r := .of_exec fun number => by
    rw [exec_peek, @peek_eq probes r, hv]
  obtain ⟨r', e', a', hf, hle, hrest⟩ := h _ _ _ _ ht hadds hn ho hv
  exact ⟨r', e', a', hpeek.bind hf hle, hle, hrest⟩

/-- A node may be put around an operand and what a script reads after it. -/
lemma around {body : Script Unit} {is : List Item} (wrap : Operand → α) (rule : Rule) (field : Field)
    (hbody : Reads probes body ts () (is, rest)) :
    Extends probes (fun o => do return wrap (.node (← around rule field o body))) wrap left ts
      (.node none rule (left.under field :: is)) rest := by
  intro r₀ r events anchor ht hadds hn ho hv
  obtain ⟨r', e', a', haround, hle, hadds', hv', hn'⟩ := exec_around rule field ht hadds hn ho (hv ▸ hbody)
  exact ⟨r', e', a', haround.map fun n => wrap (.node n), hle, hadds', hv', hn', rfl⟩

/-- An operand may become the left one of an operation. -/
lemma operation {right : Script (Option Operand)} {rd : OperandReading} (rule : Rule)
    (hright : ReadsOperand probes right (C.take (some .operator) ts).2 rd) :
    Extends probes (fun o => operation rule o right) (·) left ts
      (.node none rule (left.under .left ::
        ((C.take (some .operator) ts).1 ++ (rd.orMissing (some .right)).1)))
      rd.rest := by
  have hbody : Reads probes (take (some .operator) >>= fun _ => right >>= Script.orMissing (some .right))
      ts () _ := (reads_take (some .operator) ts).bind (hright.orMissing (some .right))
  exact around (·) rule .left hbody

end Extends

namespace ReadsOperand

variable {p : Script (Option Operand)} {f : Option Operand → Script (Option Operand)}
  {ts rest rest' : List Token} {before : List Item} {left out : Item}

/-- A script may read no operand. -/
lemma none (ts : List Token) : ReadsOperand probes (pure none) ts ⟨[], none, ts⟩ :=
  fun r _ hv => ⟨r, [], .nil, hv, .pure _ r, .refl r⟩

/-- Where no operand is read, a script may end with none. -/
lemma bind_none (h : ReadsOperand probes p ts ⟨before, Option.none, rest⟩) (hf : f .none = pure .none) :
    ReadsOperand probes (p >>= f) ts ⟨before, Option.none, rest⟩ := by
  intro r ht hv
  obtain ⟨r', events, hbefore, hview, hp, hadds⟩ := h r ht hv
  exact ⟨r', events, hbefore, hview, hp.bind (hf ▸ .pure _ r') (Nat.le_refl _), hadds⟩

/-- An operand may become another one. -/
lemma extend (h : ReadsOperand probes p ts ⟨before, some left, rest⟩)
    (hf : Extends probes (fun o => f (some o)) some left rest out rest') :
    ReadsOperand probes (p >>= f) ts ⟨before, some out, rest'⟩ := by
  intro r ht hv
  obtain ⟨r₁, e₁, hbefore, hview, e₂, anchor, hn, ho, hp, hadds⟩ := h r ht hv
  -- the operand comes after what stands before it
  have hfront : Appends r { r with events := r.events ++ e₁ } e₁ := ⟨rfl, rfl, rfl, rfl⟩
  have hback : Appends { r with events := r.events ++ e₁ } r₁ e₂ :=
    ⟨by rw [hadds.events, List.append_assoc], hadds.opened, hadds.blocks, hadds.bookmark⟩
  obtain ⟨r₂, e₃, anchor', hexec, hle, hadds', hview', hn', ho'⟩ :=
    hf _ _ _ _ (hfront.tame ht hbefore.inside) hback hn ho hview
  dsimp only at hexec
  rw [List.length_append] at hexec
  exact ⟨r₂, e₁, hbefore, hview', e₃, anchor', hn', ho', hp.bind hexec hle, hfront.trans hadds'⟩

/-- The comments before an operand are taken first. -/
lemma current {f : Option Terminal → Script (Option Operand)} {operand : Option Item}
    (hc : comments ts = (before, rest))
    (h : ReadsOperand probes (f (ahead? ts)) rest ⟨[], operand, rest'⟩) :
    ReadsOperand probes (Script.current >>= f) ts ⟨before, operand, rest'⟩ := by
  intro r ht hv
  obtain ⟨r₁, e₁, hcurrent, hadds₁, hv₁, hn₁⟩ := reads_current ts r ht hv
  rw [hc] at hv₁ hn₁
  obtain ⟨r₂, e₂, hn₂, hv₂, hrest⟩ := h r₁ (hadds₁.tame ht hn₁.inside) hv₁
  have hlength : r.events.length + (e₁ ++ e₂).length = r₁.events.length + e₂.length := by
    rw [hadds₁.events, List.length_append, List.length_append, Nat.add_assoc]
  have hbefore := hn₂.append hn₁
  rw [List.append_nil] at hbefore
  refine ⟨r₂, e₁ ++ e₂, hbefore, hv₂, ?_⟩
  cases operand with
  | none => exact ⟨hcurrent.bind hrest.1 hrest.2.length_le, hadds₁.trans hrest.2⟩
  | some i =>
    obtain ⟨e₃, anchor, hn₃, ho, hexec, hadds₃⟩ := hrest
    refine ⟨e₃, anchor, hn₃, ho, ?_, ?_⟩
    · rw [hlength]
      exact hcurrent.bind hexec hadds₃.length_le
    · rw [List.append_assoc]
      exact hadds₁.trans hadds₃

/-- A node is an operand. -/
lemma node {body : Script Unit} {is : List Item} (hc : comments ts = ([], ts)) (rule : Rule)
    (h : Reads probes body ts () (is, rest)) :
    ReadsOperand probes (do return some (.node (← node rule Option.none body))) ts
      ⟨[], some (.node Option.none rule is), rest⟩ := by
  intro r ht hv
  obtain ⟨r', events, hexec, hadds, hview, hn⟩ := exec_node hc h rule Option.none ht hv
  rw [commentEvents_eq_nil hc] at hexec hadds
  exact ⟨r', [], .nil, hview, events, 0, hn, rfl, hexec.map fun n => some (Operand.node n), hadds⟩

/-- A token is an operand, which may become another one. -/
lemma bump {t : Token} {f : Operand → Script (Option Operand)} (hc : comments (t :: ts) = ([], t :: ts))
    (field : Option Field) (hf : Extends probes f some (.token field t) ts out rest) :
    ReadsOperand probes (Script.bump field >>= fun event => f (.token event)) (t :: ts)
      ⟨[], some out, rest⟩ := by
  intro r ht hv
  obtain ⟨r₁, e₁, hbump, hadds₁, hrest⟩ := @bump_spec probes r field
  rw [hv, commentEvents_eq_nil hc] at hbump hadds₁
  rw [hv, hc] at hrest
  obtain ⟨rfl, hv₁⟩ := hrest
  obtain ⟨r₂, e₂, anchor, hexec, hle, hadds₂, hv₂, hn₂, ho₂⟩ := hf _ _ _ _ ht hadds₁ .token rfl hv₁
  have htoken : Yields probes (Script.bump field) r _ r₁ := fun number hnumber =>
    (exec_bump field r).trans (congrArg Except.ok (hbump number hnumber))
  exact ⟨r₂, [], .nil, hv₂, e₂, anchor, hn₂, ho₂, htoken.bind hexec hle, hadds₂⟩

end ReadsOperand

/-! ## Expressions -/

/-- A string is read where its opening quote comes next. -/
lemma readsOperand_stringLiteral {t : Token} {rest : List Token}
    (hc : comments (t :: rest) = ([], t :: rest)) :
    ReadsOperand probes (do return some (← stringLiteral)) (t :: rest)
      ⟨[], some (C.stringLiteral t rest).1, (C.stringLiteral t rest).2⟩ := by
  have htake := @reads_take probes none (t :: rest)
  rw [C.take, hc] at htake
  have hbody : Reads probes (do take none; let _ ← takeIf .stringContent none; expect .quote none)
      (t :: rest) () (.token none t :: ((C.takeIf .stringContent none rest).1 ++
        (C.expect .quote none (C.takeIf .stringContent none rest).2).1),
        (C.expect .quote none (C.takeIf .stringContent none rest).2).2) := by
    exact htake.seq (reads_takeIf .stringContent none (reads_expect .quote none _)) rfl
  have hnode := ReadsOperand.node hc .stringLiteral hbody
  rwa [stringLiteral, bind_assoc]

/-- Before a list of arguments a name is that of a function. -/
lemma extends_call {room : Nat} {t : Token} {rest : List Token} {argument : Script Bool}
    {reader : List Token → Reading × Bool} (hk : Consumes reader) (hr : rest.length < room)
    (h : ∀ us, us.length < room → Reads probes argument us (reader us).2 (reader us).1)
    (ha : ahead? rest = some .leftParen) :
    Extends probes (fun o => nameOrCall room argument o) (·) (.token none t) rest
      (.node none .callExpression (.token (some .function) t :: ((comments rest).1 ++
        [Item.node (some .arguments) .argumentList
          (C.parenthesized expressionFirst reader (comments rest).2).1])))
      (C.parenthesized expressionFirst reader (comments rest).2).2 := by
  have hle := Nat.le_trans (length_take_le none (comments rest).2) (length_comments_le rest)
  have hlist : Reads probes (parenthesized room expressionFirst argument) (comments rest).2 () _ :=
    reads_parenthesized hk (by omega) fun us hus _ => h us (by omega)
  refine .peek ?_
  simp only [if_pos ha]
  exact .around (·) .callExpression .function
    (reads_node rfl hlist .argumentList (some .arguments) (.pure () _))

/-- Without a list of arguments after it a name stays as it is. -/
lemma extends_name {room : Nat} {t : Token} {rest : List Token} {argument : Script Bool}
    (ha : ahead? rest ≠ some .leftParen) :
    Extends probes (fun o => nameOrCall room argument o) (·) (.token none t) rest (.token none t) rest := by
  refine .peek ?_
  simp only [if_neg ha]
  exact .pure (·) _ rest

/-- A primary expression is read as by the readers, if expressions below it are. -/
lemma readsOperand_primaryWithin {room depth : Nat} {ts : List Token} (hr : ts.length < room)
    (expr : ∀ ts, ts.length < room →
      ReadsOperand probes (expressionWithin room depth) ts (C.expressionWithin depth ts)) :
    ReadsOperand probes (primaryWithin room (depth + 1)) ts (C.primaryWithin (depth + 1) ts) := by
  rw [primaryWithin, C.primaryWithin]
  cases hc : comments ts with
  | mk before pending =>
    cases pending with
    | nil => exact .current hc (by rw [ahead?_of_comments_nil hc]; exact .none [])
    | cons t rest =>
      have hlt := length_comments_cons_le hc
      have hcs := comments_rest hc
      have hahead := ahead?_of_comments hc
      dsimp only
      split
      · rename_i hk
        split
        · rename_i ha
          have hcall := (extends_call (t := t) (consumes_expressionWithin depth)
            (Nat.lt_trans hlt hr) (fun us hus => (expr us hus).reads Option.isSome fun o ho => ho) ha).bind
            (.pure some _ _)
          exact .current hc (by rw [hahead, hk]; exact .bump hcs none hcall)
        · rename_i ha
          have hname : Extends probes (fun o => nameOrCall room
              (do return (← expressionWithin room depth).isSome) o >>= fun o => pure (some o)) some
              (.token none t) rest _ _ := (extends_name ha).bind (.pure some _ rest)
          exact .current hc (by rw [hahead, hk]; exact .bump hcs none hname)
      · rename_i hk
        exact .current hc (by rw [hahead, hk]; exact .bump hcs none (.pure some _ rest))
      · rename_i hk
        exact .current hc (by rw [hahead, hk]; exact readsOperand_stringLiteral hcs)
      · rename_i hk
        refine .current hc ?_
        rw [hahead, hk]
        have htake := @reads_take probes none (t :: rest)
        rw [C.take, hcs] at htake
        have hinner := ((expr rest (by omega)).orMissing none).next (reads_expect .rightParen none _)
        exact .node hcs .parenthesizedExpression (htake.next hinner.assoc)
      · rename_i h₁ h₂ h₃ h₄
        refine .current hc ?_
        rw [hahead]
        split
        all_goals first | exact .none _ | simp_all

/-- The readers of expressions are followed, however deep they may go. -/
lemma reads_within (room depth : Nat) :
    (∀ ts, ts.length < room →
      ReadsOperand probes (expressionWithin room depth) ts (C.expressionWithin depth ts)) ∧
    (∀ power ts, ts.length < room →
      ReadsOperand probes (binaryWithin room depth power) ts (C.binaryWithin depth power ts)) ∧
    (∀ power left ts, ts.length < room →
      Extends probes (fun o => joinWithin room depth power o) (·) left ts
      (C.joinWithin depth power left ts).1 (C.joinWithin depth power left ts).2) ∧
    (∀ ts, ts.length < room →
      ReadsOperand probes (primaryWithin room depth) ts (C.primaryWithin depth ts)) := by
  induction depth with
  | zero =>
    exact ⟨fun ts _ => .none ts, fun _ ts _ => .none ts, fun _ left ts _ => .pure (·) left ts,
      fun ts _ => .none ts⟩
  | succ depth ih =>
    obtain ⟨expr, bin, join, prim⟩ := ih
    refine ⟨fun ts hr => ?_, fun power ts hr => ?_, fun power left ts hr => ?_, fun ts hr => ?_⟩
    · have hleft := bin 0 ts hr
      have hle := length_rest_le ((keeps_within depth).2.1 0 ts)
      rw [expressionWithin, C.expressionWithin]
      generalize C.binaryWithin depth 0 ts = rd at hleft hle
      obtain ⟨before, _ | left, rest⟩ := rd
      · exact hleft.bind_none rfl
      · dsimp only at hle ⊢
        split
        · rename_i ha
          refine hleft.extend (.peek ?_)
          simp only [if_pos ha]
          have hlt := length_take_lt_of_ahead (some .operator) ha
          exact (Extends.operation .assignmentExpression (expr _ (by omega))).bind (.pure some _ _)
        · rename_i ha
          refine hleft.extend (.peek ?_)
          simp only [if_neg ha]
          exact .pure some left rest
    · have hleft := prim ts hr
      have hle := length_rest_le ((keeps_within depth).2.2.2 ts)
      rw [binaryWithin, C.binaryWithin]
      generalize C.primaryWithin depth ts = rd at hleft hle
      obtain ⟨before, _ | left, rest⟩ := rd
      · exact hleft.bind_none rfl
      · dsimp only at hle
        exact hleft.extend ((join power left rest (by omega)).bind (.pure some _ _))
    · simp only [joinWithin]
      rw [C.joinWithin]
      refine .peek ?_
      cases ha : ahead? ts with
      | none => exact .pure (·) left ts
      | some k =>
        rw [Option.bind_some]
        cases bindingPower? k with
        | none => exact .pure (·) left ts
        | some p =>
          dsimp only
          split
          · have hlt := length_take_lt_of_ahead (some .operator) ha
            have hle := length_rest_le ((keeps_within depth).2.1 (p + 1) (C.take (some .operator) ts).2)
            exact (Extends.operation .binaryExpression (bin (p + 1) _ (by omega))).bind
              (join power _ _ (by omega))
          · exact .pure (·) left ts
    · exact readsOperand_primaryWithin hr expr

/-- The script of an expression reads what its reader reads, where there is room for its tokens. -/
lemma readsOperand_expression {room : Nat} {ts : List Token} (hr : ts.length < room) :
    ReadsOperand probes (expression room) ts (C.expression ts) := by
  have hbound : 3 * ts.length + 3 ≤ depthBound room := by
    rw [depthBound]
    omega
  rw [← expressionWithin_eq hbound]
  exact (reads_within room (depthBound room)).1 ts hr

end Script

end Reparse.C
