import Reparse.C.Event
import Reparse.C.Reader
import Reparse.Proofs.Building

/-!
# Events and items

Events note items: a node as its start, what notes its parts, and its end; but a node that begins
with a node may have its start behind it, to which the start of the inner node points (`Notes.chain`).
Where events note items, no chain of starts is broken, and they stand for the calls that build the
items (`toCalls_append`), in which nodes begin and end in turn (`oneNode_calls`). So the tree of the
events is the tree of the items (`Event.treeOf_eq`).
-/

namespace Reparse.C

open Event Item

/-- Where something is computed from a result, there was one. -/
lemma map_ok {ε α β : Type} {x : Except ε α} {f : α → β} {b : β} (h : x.map f = .ok b) :
    ∃ a, x = .ok a ∧ f a = b := by
  cases x with
  | error e => cases h
  | ok a => exact ⟨a, rfl, Except.ok.inj h⟩

/-- Where a second computation has a result, the first one has. -/
lemma bind_ok {ε α β : Type} {x : Except ε α} {f : α → Except ε β} {b : β} (h : x.bind f = .ok b) :
    ∃ a, x = .ok a ∧ f a = .ok b := by
  cases x with
  | error e => cases h
  | ok a => exact ⟨a, rfl, h⟩

section

variable {α : Type}

/-- A change in the first of two parts leaves the second one. -/
lemma modify_append_left {a b : List α} {f : α → α} {i : Nat} (h : i < a.length) :
    (a ++ b).modify i f = a.modify i f ++ b := by
  induction a generalizing i with
  | nil => cases h
  | cons x a ih =>
    cases i with
    | zero => rfl
    | succ i =>
      rw [List.cons_append, List.modify_succ_cons, List.modify_succ_cons, List.cons_append,
        ih (Nat.lt_of_succ_lt_succ h)]

/-- A change in the second of two parts leaves the first one. -/
lemma modify_append_right (a b : List α) (f : α → α) (i : Nat) :
    (a ++ b).modify (a.length + i) f = a ++ b.modify i f := by
  induction a with
  | nil => rw [List.length_nil, Nat.zero_add, List.nil_append, List.nil_append]
  | cons x a ih =>
    rw [List.cons_append, List.length_cons, Nat.add_right_comm, List.modify_succ_cons, ih,
      List.cons_append]

/-- A change right after the first part changes the next element. -/
lemma modify_append_cons {a : List α} {i : Nat} (h : i = a.length) (b : List α) (x : α) (f : α → α) :
    (a ++ x :: b).modify i f = a ++ f x :: b := by
  rw [h]
  exact modify_append_right a (x :: b) f 0

/-- Where a change leaves an element as it is, it leaves the list. -/
lemma modify_eq_of_getElem? {l : List α} {f : α → α} {i : Nat} {x : α} (h : l[i]? = some x)
    (hx : f x = x) : l.modify i f = l := by
  refine List.ext_getElem? fun j => ?_
  by_cases hij : i = j
  · rw [← hij, List.getElem?_modify_eq, h]
    exact congrArg some hx
  · rw [List.getElem?_modify_ne _ _ hij]

end

/-- Whether an item is a node. -/
def Item.isNode : Item → Bool
  | .node .. => true
  | _ => false

mutual

/-- Events that note an item; at the given place among them is the start of its node, or the item
itself. -/
inductive Notes : List Event → Item → Nat → Prop where
  | token {field t} : Notes [.token field t t.isComment] (.token field t) 0
  | missing {field kind} : Notes [.missing field kind] (.missing field kind) 0
  | reused {g} : Notes [.reused g] (.reused g) 0
  | node {field rule parts events} :
    NotesAll events parts →
    Notes (.start (some rule) field none :: (events ++ [Event.finish])) (.node field rule parts) 0
  | chain {field rule left parts inner anchor events} :
    Notes inner left anchor → left.isNode = true → NotesAll events parts →
    Notes (inner.modify anchor (.within (inner.length - anchor)) ++
        .start (some rule) field none :: (events ++ [Event.finish]))
      (.node field rule (left :: parts)) inner.length

/-- Events that note several items; a start that begins no node may stand before a token. -/
inductive NotesAll : List Event → List Item → Prop where
  | nil : NotesAll [] []
  | cons {a b i is anchor} : Notes a i anchor → NotesAll b is → NotesAll (a ++ b) (i :: is)
  | loose {field t b is} :
    NotesAll b is → NotesAll (.tombstone :: .token field t t.isComment :: b) (.token field t :: is)

end

namespace NotesAll

/-- The events of one item are those of it alone. -/
lemma single {events i anchor} (h : Notes events i anchor) : NotesAll events [i] := by
  have hcons := NotesAll.cons h .nil
  rwa [List.append_nil] at hcons

/-- The events of items come one after the other. -/
lemma append {b js} (h' : NotesAll b js) : ∀ {a is}, NotesAll a is → NotesAll (a ++ b) (is ++ js)
  | _, _, .nil => h'
  | _, _, .cons h hs => by
    rw [List.append_assoc, List.cons_append]
    exact .cons h (append h' hs)
  | _, _, .loose hs => .loose (append h' hs)

/-- Tokens are noted one by one. -/
lemma tokens (field : Option Field) (ts : List Token) :
    NotesAll (ts.map fun t => .token field t t.isComment) (ts.map (.token field)) := by
  induction ts with
  | nil => exact .nil
  | cons t ts ih => exact .cons .token ih

end NotesAll

namespace Notes

/-- What is at the place of an item. -/
lemma getElem?_anchor : ∀ {events i anchor}, Notes events i anchor → ∃ e, events[anchor]? = some e ∧
    (i.isNode = true → ∃ rule field, e = .start (some rule) field none)
  | _, _, _, .token => ⟨_, rfl, fun h => by cases h⟩
  | _, _, _, .missing => ⟨_, rfl, fun h => by cases h⟩
  | _, _, _, .reused => ⟨_, rfl, fun h => by cases h⟩
  | _, _, _, .node _ => ⟨_, rfl, fun _ => ⟨_, _, rfl⟩⟩
  | _, _, _, @chain field rule left parts inner anchor events h _ _ => by
    refine ⟨.start (some rule) field none, ?_, fun _ => ⟨_, _, rfl⟩⟩
    rw [List.getElem?_append_right (by simp), List.length_modify, Nat.sub_self]
    rfl

/-- The anchor of an item is one of its events. -/
lemma anchor_lt {events i anchor} (h : Notes events i anchor) : anchor < events.length := by
  obtain ⟨e, he, -⟩ := h.getElem?_anchor
  exact (List.getElem?_eq_some_iff.1 he).1

/-- An item under a field is noted with the event at its place under it. -/
lemma under {events i anchor} (h : Notes events i anchor) (f : Field) :
    Notes (events.modify anchor (.under f)) (i.under f) anchor := by
  cases h with
  | token => exact .token
  | missing => exact .missing
  | reused => exact .reused
  | node hs => exact .node hs
  | @chain field rule left parts inner anchor events h hn hs =>
    rw [modify_append_cons (List.length_modify ..).symm]
    exact .chain h hn hs

end Notes

/-! ## Calls -/

namespace Item

mutual

/-- The calls that build an item. -/
def calls : Item → List Call
  | .token field t => [.leaf field t t.isComment]
  | .missing field kind => [.missing field kind]
  | .reused subtree => [.reuse subtree]
  | .node field rule parts => .startNode rule field :: (callsOf parts ++ [Call.finishNode])

/-- The calls that build several items. -/
def callsOf : List Item → List Call
  | [] => []
  | i :: rest => i.calls ++ callsOf rest

end

/-- The calls of items come one after the other. -/
lemma callsOf_append (is js : List Item) : callsOf (is ++ js) = callsOf is ++ callsOf js := by
  induction is with
  | nil => rfl
  | cons i is ih => rw [List.cons_append, callsOf, callsOf, ih, List.append_assoc]

end Item

/-- The starts of nodes that are found from the inside out. -/
def startsOf (found : List (Rule × Option Field)) : List Call :=
  found.reverse.map fun n => .startNode n.1 n.2

/-- The event as a start that points further on, or to none. -/
def Event.withOuter (outer : Option Nat) : Event → Event
  | .start rule field _ => .start rule field outer
  | e => e

/-- A start that lies further on is looked for there. -/
lemma outers_append (a b : List Event) (k : Nat) :
    outers (some (a.length + k + 1)) (a ++ b) =
      (outers (some (k + 1)) b).map fun r => (r.1, a ++ r.2) := by
  induction a with
  | nil =>
    rw [List.length_nil, Nat.zero_add, List.nil_append]
    cases outers (some (k + 1)) b <;> rfl
  | cons e a ih =>
    have hlength : (e :: a).length + k + 1 = a.length + k + 2 := by
      rw [List.length_cons]
      omega
    rw [hlength, List.cons_append, outers, ih]
    cases outers (some (k + 1)) b <;> rfl

/-- The nodes that are started before some events are looked for past those events. -/
lemma outers_option_append (a b : List Event) (o : Option Nat) :
    outers (o.map (a.length + · + 1)) (a ++ b) =
      (outers (o.map (· + 1)) b).map fun r => (r.1, a ++ r.2) := by
  cases o with
  | none => rw [Option.map_none, Option.map_none, outers, outers]; rfl
  | some k => exact outers_append a b k

/-- Where a node begins, so do the nodes around it that its chain leads to, which come first. -/
lemma toCalls_start (rule : Rule) (field : Option Field) (outer : Option Nat) (rest : List Event) :
    toCalls (.start (some rule) field outer :: rest) = (outers outer rest).bind fun r =>
      (toCalls r.2).map fun more => startsOf ((rule, field) :: r.1) ++ more := by
  rw [toCalls]
  split
  · rename_i h
    rw [h]
    rfl
  · rename_i found rest' h
    rw [h]
    show (toCalls rest').bind _ = (toCalls rest').map _
    cases toCalls rest' <;> rfl

/-- A finish stands for the end of a node. -/
lemma toCalls_finish (rest : List Event) :
    toCalls (.finish :: rest) = (toCalls rest).map (.finishNode :: ·) := by
  rw [toCalls]
  cases toCalls rest <;> rfl

mutual

/-- The calls of a node: before its own start come the starts of the nodes around it that its chain
leads to. -/
lemma toCalls_node_append : ∀ {events i anchor}, Notes events i anchor → i.isNode = true →
    ∀ (o : Option Nat) (rest : List Event),
    toCalls (events.modify anchor (.withOuter (o.map (events.length - anchor + ·))) ++ rest) =
      (outers (o.map (· + 1)) rest).bind fun r =>
        (toCalls r.2).map fun more => startsOf r.1 ++ i.calls ++ more
  | _, _, _, @Notes.node field rule parts events hs, _, o, rest => by
    have hdistance :
        o.map ((Event.start (some rule) field none :: (events ++ [Event.finish])).length - 0 + ·) =
        o.map ((events ++ [Event.finish]).length + · + 1) := by
      congr 1
      funext k
      rw [List.length_cons]
      omega
    rw [hdistance, List.modify_zero_cons, Event.withOuter, List.cons_append, toCalls_start,
      outers_option_append]
    cases outers (o.map (· + 1)) rest with
    | error misuse => rfl
    | ok r =>
      show (toCalls (events ++ [Event.finish] ++ r.2)).map _ = (toCalls r.2).map _
      rw [List.append_assoc, toCalls_append hs, List.singleton_append, toCalls_finish]
      cases toCalls r.2 with
      | error misuse => rfl
      | ok more => simp [Except.map, startsOf, Item.calls]
  | _, _, _, @Notes.chain field rule left parts inner anchor events h hn hs, _, o, rest => by
    have hdistance : o.map ((inner.modify anchor (.within (inner.length - anchor)) ++
          .start (some rule) field none :: (events ++ [Event.finish])).length - inner.length + ·) =
        o.map ((events ++ [Event.finish]).length + · + 1) := by
      congr 1
      funext k
      rw [List.length_append, List.length_modify, List.length_cons]
      omega
    have hinner : inner.modify anchor (.within (inner.length - anchor)) =
        inner.modify anchor (.withOuter ((some 0).map (inner.length - anchor + ·))) := by
      congr 1
    rw [hdistance, modify_append_cons (List.length_modify ..).symm, Event.withOuter, hinner,
      List.append_assoc, toCalls_node_append h hn (some 0), List.cons_append, Option.map_some, outers,
      outers_option_append]
    cases outers (o.map (· + 1)) rest with
    | error misuse => rfl
    | ok r =>
      show (toCalls (.tombstone :: (events ++ [Event.finish] ++ r.2))).map _ = (toCalls r.2).map _
      rw [Event.tombstone, toCalls, List.append_assoc, toCalls_append hs, List.singleton_append,
        toCalls_finish]
      cases toCalls r.2 with
      | error misuse => rfl
      | ok more => simp [Except.map, startsOf, Item.calls, Item.callsOf]

/-- The calls of several items. -/
lemma toCalls_append : ∀ {events is}, NotesAll events is → ∀ rest : List Event,
    toCalls (events ++ rest) = (toCalls rest).map (callsOf is ++ ·)
  | _, _, .nil, rest => by
    rw [List.nil_append]
    cases toCalls rest <;> rfl
  | _, _, .loose hs, rest => by
    rw [List.cons_append, List.cons_append, Event.tombstone, toCalls, toCalls, toCalls_append hs]
    cases toCalls rest <;> rfl
  | _, _, @NotesAll.cons a b i is anchor h hs, rest => by
    rw [List.append_assoc, Item.callsOf]
    cases hn : i.isNode with
    | true =>
      obtain ⟨e, he, hstart⟩ := h.getElem?_anchor
      obtain ⟨rule, field, rfl⟩ := hstart hn
      have hnode := toCalls_node_append h hn none (b ++ rest)
      rw [Option.map_none, modify_eq_of_getElem? he rfl, Option.map_none, outers] at hnode
      rw [hnode]
      show (toCalls (b ++ rest)).map _ = _
      rw [toCalls_append hs]
      cases toCalls rest <;> simp [Except.map, startsOf]
    | false =>
      have hrest := toCalls_append hs rest
      cases h with
      | token | missing | reused =>
        rw [List.singleton_append, toCalls, hrest]
        cases toCalls rest <;> rfl
      | node _ | chain _ _ _ => cases hn

end

/-! ## Nodes that begin and end in turn -/

namespace Call

/-- Whether a call begins a node. -/
def isStart : Call → Bool
  | startNode .. => true
  | _ => false

/-- Whether a call ends a node. -/
def isFinish : Call → Bool
  | finishNode => true
  | _ => false

/-- Whether among some calls no more nodes end than have begun, and in the end as many, at every
point. -/
structure Balanced (calls : List Call) : Prop where
  upTo : ∀ n, (calls.take n).countP isFinish ≤ (calls.take n).countP isStart
  whole : calls.countP isFinish = calls.countP isStart

/-- Whether the calls make one node: it begins with the first and ends with the last of them, and
never before that has as much ended as has begun. -/
structure OneNode (calls : List Call) : Prop where
  ne_nil : calls ≠ []
  inside : ∀ n, 0 < n → n < calls.length →
    (calls.take n).countP isFinish < (calls.take n).countP isStart
  whole : calls.countP isFinish = calls.countP isStart

namespace Balanced

/-- No calls are balanced. -/
lemma nil : Balanced [] := ⟨fun n => by simp, rfl⟩

/-- Balanced calls may follow each other. -/
lemma append {a b : List Call} (ha : Balanced a) (hb : Balanced b) : Balanced (a ++ b) where
  upTo n := by
    rw [List.take_append, List.countP_append, List.countP_append]
    exact Nat.add_le_add (ha.upTo n) (hb.upTo _)
  whole := by rw [List.countP_append, List.countP_append, ha.whole, hb.whole]

/-- What begins and ends in turn makes one node with a start before it and an end after it. -/
lemma oneNode {calls : List Call} (h : Balanced calls) (rule : Rule) (field : Option Field) :
    OneNode (startNode rule field :: (calls ++ [finishNode])) where
  ne_nil := List.cons_ne_nil _ _
  inside n hpos hlt := by
    obtain ⟨n, rfl⟩ : ∃ k, n = k + 1 := ⟨n - 1, by omega⟩
    rw [List.length_cons, List.length_append, List.length_singleton] at hlt
    rw [List.take_succ_cons, List.take_append_of_le_length (by omega),
      List.countP_cons_of_neg Bool.false_ne_true, List.countP_cons_of_pos rfl]
    exact Nat.lt_succ_of_le (h.upTo n)
  whole := by
    rw [List.countP_cons_of_neg Bool.false_ne_true, List.countP_cons_of_pos rfl, List.countP_append,
      List.countP_append, h.whole]
    rfl

end Balanced

/-- The calls of one node are balanced. -/
lemma OneNode.balanced {calls : List Call} (h : OneNode calls) : Balanced calls where
  upTo n := by
    rcases Nat.eq_zero_or_pos n with rfl | hpos
    · exact Nat.le_refl _
    · by_cases hlt : n < calls.length
      · exact Nat.le_of_lt (h.inside n hpos hlt)
      · rw [List.take_of_length_le (Nat.le_of_not_lt hlt)]
        exact Nat.le_of_eq h.whole
  whole := h.whole

/-- A call that begins or ends no node is balanced by itself. -/
lemma Balanced.single {c : Call} (hs : c.isStart = false) (hf : c.isFinish = false) :
    Balanced [c] where
  upTo n := by
    cases n with
    | zero => exact Nat.le_refl _
    | succ n => simp [hs, hf]
  whole := by simp [hs, hf]

end Call

mutual

/-- In the calls of an item nodes begin and end in turn. -/
lemma Item.balanced_calls : ∀ i : Item, Call.Balanced i.calls
  | .token .. => .single rfl rfl
  | .missing .. => .single rfl rfl
  | .reused _ => .single rfl rfl
  | .node _ _ parts => ((Item.balanced_callsOf parts).oneNode _ _).balanced

/-- The calls of items are balanced. -/
lemma Item.balanced_callsOf : ∀ is : List Item, Call.Balanced (callsOf is)
  | [] => .nil
  | i :: rest => (Item.balanced_calls i).append (Item.balanced_callsOf rest)

end

/-! ## Trees -/

/-- Calls are performed one after the other. -/
lemma Call.performAll_cons (s : Source) (b : Builder) (c : Call) (calls : List Call) :
    performAll s b (c :: calls) = (c.perform s b).bind fun b => performAll s b calls := rfl

mutual

/-- A builder that is told the calls of an item adds the item. -/
lemma performAll_calls (s : Source) : ∀ (i : Item) (b : Builder) (rest : List Call),
    Call.performAll s b (i.calls ++ rest) = (addTo s b i).bind fun b => Call.performAll s b rest
  | .token .., _, _ => rfl
  | .missing .., _, _ => rfl
  | .reused _, _, _ => rfl
  | .node field rule parts, b, rest => by
    rw [Item.calls, List.cons_append, Call.performAll_cons, List.append_assoc]
    show Call.performAll s _ _ = _
    rw [performAll_callsOf s parts, addTo]
    show _ = ((addAllTo s _ parts).bind Builder.finishNode).bind _
    cases addAllTo s (b.startNode rule.symbol (field.map Field.id)) parts <;> rfl

/-- The calls of items add them to the builder. -/
lemma performAll_callsOf (s : Source) : ∀ (is : List Item) (b : Builder) (rest : List Call),
    Call.performAll s b (callsOf is ++ rest) = (addAllTo s b is).bind fun b => Call.performAll s b rest
  | [], _, _ => rfl
  | i :: is, b, rest => by
    rw [Item.callsOf, List.append_assoc, performAll_calls s i, addAllTo]
    cases addTo s b i with
    | error fault => rfl
    | ok b => exact performAll_callsOf s is b rest

end

/-- The events of a complete document stand for calls that make one node, and become the tree of its
items. -/
theorem Event.treeOf_eq (s : Source) (generation : Nat) {events : List Event} {items : List Item}
    (h : NotesAll events items) :
    ∃ calls tree, toCalls (.start (some .document) none none :: (events ++ [Event.finish])) = .ok calls ∧
      Call.OneNode calls ∧
      Event.treeOf s generation (.start (some .document) none none :: (events ++ [Event.finish])) =
        .ok tree ∧
      Item.treeOf s generation items = .ok tree := by
  have hcalls : toCalls (.start (some .document) none none :: (events ++ [Event.finish])) =
      .ok (Item.calls (.node none .document items)) := by
    rw [toCalls_start, outers]
    show (toCalls (events ++ [Event.finish])).map _ = _
    rw [toCalls_append h, toCalls_finish, toCalls]
    rfl
  obtain ⟨made, c, hadd, -⟩ := addTo_eq s (.node none .document items) (.new grammar generation) rfl
  have hperform : Call.performAll s (.new grammar generation) (Item.calls (.node none .document items)) =
      addTo s (.new grammar generation) (.node none .document items) := by
    have hnil := performAll_calls s (.node none .document items) (.new grammar generation) []
    rw [List.append_nil] at hnil
    rw [hnil]
    cases addTo s (.new grammar generation) (.node none .document items) <;> rfl
  obtain ⟨tree, htree, -⟩ := Item.treeOf_eq s generation items
  refine ⟨_, tree, hcalls, (Item.balanced_callsOf items).oneNode _ _, ?_, htree⟩
  -- the builder is left with the document as its only node
  generalize hb : ({ Builder.new grammar generation with
    made := made
    children := c :: (Builder.new grammar generation).children
    position := (built s.positionAt (Builder.new grammar generation).position
      (.node none .document items)).2 } : Builder) = b at hadd
  have hone : b.children.length = 1 := by rw [← hb]; rfl
  rw [Item.treeOf, hadd] at htree
  have hfinish : b.finish (s.positionAt s.endOfInput) s.ranges = .ok tree := htree
  rw [Event.treeOf, hcalls]
  show ((Call.performAll s _ _).mapError Misuse.unbalanced).bind _ = _
  rw [hperform, hadd]
  show ((b.finish _ _).mapError Misuse.unbalanced).bind _ = _
  rw [hfinish]
  exact if_pos hone

end Reparse.C
