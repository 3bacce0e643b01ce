import Reparse.Proofs.Bounds
import Reparse.Proofs.Bracketing
import Reparse.Proofs.Progress

/-!
# Iterations

What the loops of the parser take in one iteration. A step that does not close a block takes a
character, and so does each round of a list that another round follows (`parse_progresses`). For a
step that takes over a node this rests on the old tree: a node of it that may be taken over must not
be void (`Tree.Solid`). Trees that calls give are solid, as a node without an error starts with a
token, and edits keep them so (`Offered.solid`). Where a void node without padding comes next instead,
it is taken over again and again (`State.Caught.stalled`).
-/

namespace Reparse

open C (reusableAtTop)

/-! ## Solid trees -/

namespace Label

/-- Whether a node is not void, unless it is marked or holds an error. -/
def Firm (l : Label) : Prop := l.hasChanges = false → l.hasError = false → 0 < l.size.bytes

/-- The same of the nodes of rules that may be taken over. -/
def Solid (l : Label) : Prop :=
  l.hasChanges = false → l.hasError = false → (∃ rule ∈ reusableAtTop, rule.symbol = l.symbol) →
    0 < l.size.bytes

variable {l : Label}

/-- A firm node is solid. -/
lemma Firm.solid (h : l.Firm) : l.Solid := fun hc he _ => h hc he

/-- A marked node is firm. -/
lemma firm_of_marked (hl : l.hasChanges = true) : l.Firm := fun hc => by
  rw [hl] at hc
  cases hc

end Label

namespace Green

mutual

/-- Whether no node of a tree that may be taken over is void: neither marked nor an error, and of a
rule whose nodes may be. -/
def Solid : Green → Prop
  | node l cs =>
    (l.hasChanges = false → l.hasError = false → (∃ rule ∈ reusableAtTop, rule.symbol = l.symbol) →
      0 < l.size.bytes) ∧ SolidAll cs

/-- The same of several trees. -/
def SolidAll : List (Child Green) → Prop
  | [] => True
  | c :: rest => c.node.Solid ∧ SolidAll rest

end

/-! Whether nodes are void is said of their labels, so that a property of labels is followed through a
tree. -/

mutual

/-- Whether a property holds of every label in a tree. -/
def Every (P : Label → Prop) : Green → Prop
  | node l cs => P l ∧ EveryAll P cs

/-- The same of several trees. -/
def EveryAll (P : Label → Prop) : List (Child Green) → Prop
  | [] => True
  | c :: rest => c.node.Every P ∧ EveryAll P rest

end

section

variable {P Q : Label → Prop}

/-- What holds of the labels of all trees holds of those of each. -/
lemma EveryAll.of_mem {cs : List (Child Green)} (h : EveryAll P cs) : ∀ c ∈ cs, c.node.Every P := by
  induction cs with
  | nil => exact fun _ hc => by cases hc
  | cons c cs ih =>
    intro d hd
    rcases List.mem_cons.1 hd with rfl | hd
    · exact h.1
    · exact ih h.2 d hd

mutual

/-- A node that an edit touches is marked, and all others stay as they are. -/
lemma Every.edit (hP : ∀ l : Label, l.hasChanges = true → P l) : ∀ {g : Green}, g.Every P →
    ∀ (generation : Nat) (place : List Nat) (e : Edit), (g.edit generation place e).Every P
  | node l cs, ⟨hl, hs⟩, generation, place, e => by
    rw [Green.edit]
    split
    · exact ⟨hl, hs⟩
    · exact ⟨hP _ rfl, hs.edit hP generation place e e.isInsertion 0 .zero⟩

/-- What holds of all marked labels still holds of every label of trees after an edit. -/
lemma EveryAll.edit (hP : ∀ l : Label, l.hasChanges = true → P l) : ∀ {cs : List (Child Green)},
    EveryAll P cs → ∀ (generation : Nat) (place : List Nat) (e : Edit) (insertion : Bool) (index : Nat)
      (left : Length), EveryAll P (editChildren generation place e insertion index left cs)
  | [], _, _, _, _, _, _, _ => trivial
  | c :: rest, ⟨hc, hr⟩, generation, place, e, insertion, index, left => by
    rw [editChildren]
    split
    · exact ⟨hc, hr.edit hP generation place e insertion (index + 1) _⟩
    split
    · exact ⟨hc, hr⟩
    split
    · exact ⟨hc.edit hP generation (index :: place) _,
        hr.edit hP generation place e.absorbed false (index + 1) _⟩
    · exact ⟨hc.edit hP generation (index :: place) _,
        hr.edit hP generation place e insertion (index + 1) _⟩

end

mutual

/-- What follows from a property of labels holds of every label of a tree as well. -/
lemma Every.mono (hPQ : ∀ l, P l → Q l) : ∀ {g : Green}, g.Every P → g.Every Q
  | node _ _, ⟨hl, hs⟩ => ⟨hPQ _ hl, hs.mono hPQ⟩

/-- What follows from a property of labels holds of every label of trees as well. -/
lemma EveryAll.mono (hPQ : ∀ l, P l → Q l) : ∀ {cs : List (Child Green)}, EveryAll P cs → EveryAll Q cs
  | [], _ => trivial
  | _ :: _, ⟨hc, hr⟩ => ⟨hc.mono hPQ, hr.mono hPQ⟩

end

mutual

/-- A tree has the labels of its bare tree, but for the storage. -/
lemma Every.of_bare (hP : ∀ l : Label, P l.bare → P l) : ∀ {g : Green}, g.bare.Every P → g.Every P
  | node _ _, ⟨hl, hs⟩ => ⟨hP _ hl, hs.of_bare hP⟩

/-- A property that stamps and marks do not matter to holds of every label of trees if it does without them.
-/
lemma EveryAll.of_bare (hP : ∀ l : Label, P l.bare → P l) : ∀ {cs : List (Child Green)},
    EveryAll P (bareAll cs) → EveryAll P cs
  | [], _ => trivial
  | _ :: _, ⟨hc, hr⟩ => ⟨hc.of_bare hP, hr.of_bare hP⟩

end

end

mutual

/-- A tree is solid if every node of it is. -/
lemma solid_iff : ∀ {g : Green}, g.Solid ↔ g.Every Label.Solid
  | node _ _ => and_congr Iff.rfl solidAll_iff

/-- Trees are solid if every node of them is. -/
lemma solidAll_iff : ∀ {cs : List (Child Green)}, SolidAll cs ↔ EveryAll Label.Solid cs
  | [] => Iff.rfl
  | _ :: _ => and_congr solid_iff solidAll_iff

end

/-- Solid trees are solid after an edit. -/
lemma SolidAll.edit {cs : List (Child Green)} (h : SolidAll cs) (generation : Nat) (place : List Nat)
    (e : Edit) (insertion : Bool) (index : Nat) (left : Length) :
    SolidAll (editChildren generation place e insertion index left cs) :=
  solidAll_iff.2 <| (solidAll_iff.1 h).edit (fun _ hl => (Label.firm_of_marked hl).solid) ..

end Green

namespace Node

variable {P : Label → Prop} {n m c : Node}

/-- What holds of all labels under a node holds of those of its children. -/
lemma every_child (h : Green.EveryAll P n.green.children) (hc : c ∈ n.children) : c.green.Every P := by
  obtain ⟨e, he, rfl⟩ := List.mem_map.1 hc
  obtain ⟨child, hchild, -, hgreen⟩ := exists_of_mem_entries he
  rw [hgreen]
  exact h.of_mem child hchild

/-- What holds of every label of a node holds of those of its children. -/
lemma everyAll_of_every (h : n.green.Every P) : Green.EveryAll P n.green.children := by
  obtain ⟨t, ⟨l, cs⟩, start⟩ := n
  exact h.2

/-- What holds of every label of a node holds of its own. -/
lemma label_of_every (h : n.green.Every P) : P n.green.label := by
  obtain ⟨t, ⟨l, cs⟩, start⟩ := n
  exact h.1

/-- A node with text ends after its start, which lies below the largest count. -/
lemma lt_stopByte (hlt : n.startByte < limit) (hpos : 0 < n.green.label.size.bytes) :
    n.startByte < n.stopByte := by
  have hstop : n.stopByte = addCounts n.startByte n.green.label.size.bytes := rfl
  rw [hstop, addCounts]
  omega

end Node

/-- Whether no node below the root of a tree that may be taken over is void. -/
def Tree.Solid (t : Tree) : Prop := Green.SolidAll t.root.children

/-- A solid tree is solid after an edit. -/
lemma Tree.Solid.edit {t : Tree} (h : t.Solid) (generation : Nat) (e : Edit) :
    (t.edit generation e).Solid := by
  obtain ⟨⟨l, cs⟩, grammar, ranges⟩ := t
  have hs : Green.SolidAll cs := h
  show Green.SolidAll ((Green.node l cs).edit generation [] e).children
  rw [Green.edit]
  split
  · exact hs
  · exact hs.edit generation [] e e.isInsertion 0 .zero

/-- Whether an included character starts at `x` or after it, and before `y`. -/
def Source.Includes (source : Source) (x y : Nat) : Prop :=
  ∃ c ∈ source.chars, x ≤ c.byte ∧ c.byte < y

namespace C

open Item

namespace Item

mutual

/-- What is built of an item made of tokens has no void nodes; if it holds no error, it starts with a token
and is not void. -/
theorem firm_built {place : Nat → Length} {bound : Nat} (hp : Coherent place bound) :
    ∀ {i : Item} {x y : Nat}, i.Whole → InOrder x i.tokens y → y ≤ bound →
      (built place (place x) i).1.node.Every Label.Firm ∧
        ((built place (place x) i).1.node.label.hasError = false →
          0 < (built place (place x) i).1.node.label.size.bytes)
  | token field t, x, y, _, ho, _ => by
    obtain ⟨-, hlt, -⟩ := ho
    have hpos : 0 < ((place t.stop).beyond (place t.start)).bytes := by
      rw [Length.bytes_beyond, hp.bytes, hp.bytes]
      omega
    exact ⟨⟨fun _ _ => hpos, trivial⟩, fun _ => hpos⟩
  | missing field kind, x, y, _, _, _ =>
    ⟨⟨fun _ => nofun, trivial⟩, nofun⟩
  | reused g, _, _, h, _, _ => h.elim
  | node field rule [], _, _, h, _, _ => absurd rfl h.1
  | node field rule (i :: rest), x, y, h, ho, hy => by
    obtain ⟨hfirm, hfirst⟩ := firm_builtAll hp h.2 ho hy
    obtain ⟨⟨a, hl⟩, -⟩ := laid_built hp h ho hy
    suffices hpos : (built place (place x) (node field rule (i :: rest))).1.node.label.hasError = false →
        0 < (built place (place x) (node field rule (i :: rest))).1.node.label.size.bytes from
      ⟨⟨fun _ he => hpos he, hfirm⟩, hpos⟩
    intro he
    cases hl with
    | node hc hcs _ hsize =>
      -- the first part is as little an error as the whole, and both start at the same place
      have hclean := (Bool.or_eq_false_iff.1 (Bool.or_eq_false_iff.1 he).2).1
      have hpos := hfirst _ rfl hclean
      have hle := hcs.le
      rw [hc.padding.2, Length.bytes_beyond, hp.bytes, hp.bytes] at hpos
      have hbytes := congrArg Length.bytes hsize
      rw [Length.bytes_beyond, hp.bytes, hp.bytes] at hbytes
      refine Nat.lt_of_lt_of_eq ?_ hbytes.symm
      omega

/-- Trees that are built from tokens in order are firm, and the first of them is not void. -/
theorem firm_builtAll {place : Nat → Length} {bound : Nat} (hp : Coherent place bound) :
    ∀ {is : List Item} {x y : Nat}, WholeAll is → InOrder x (tokensOf is) y → y ≤ bound →
      Green.EveryAll Label.Firm (builtAll place (place x) is).1 ∧
        ∀ c ∈ (builtAll place (place x) is).1.head?, c.node.label.hasError = false →
          0 < c.node.label.size.bytes
  | [], _, _, _, _, _ => ⟨trivial, fun _ hc => by cases hc⟩
  | i :: rest, x, y, h, ho, hy => by
    rw [tokensOf, inOrder_append] at ho
    have hle := Nat.le_trans ho.2.le.1 (Nat.le_trans ho.2.le.2 hy)
    obtain ⟨hi, hpos⟩ := firm_built hp h.1 ho.1 hle
    have hnext := (laid_built hp h.1 ho.1 hle).2
    obtain ⟨hr, -⟩ := firm_builtAll hp h.2 ho.2 hy
    rw [builtAll_cons, hnext]
    refine ⟨⟨hi, hr⟩, fun c hc => ?_⟩
    obtain rfl := Option.some.inj hc
    exact hpos

end

end Item

/-- Whether a tree may be given to a call as its old tree without keeping it forever: it was parsed,
or edited in whatever way, or is solid, however it was put together. -/
inductive Offered : Tree → Prop where
  | parsed {p q d oldTree outside generation t} :
    Used False p → (∀ t ∈ oldTree, Matches False d t) → d.bytes.length ≤ limit →
    p.parse outside generation d oldTree = (.ok t, q) → Offered t
  | edited {t} (generation : Nat) (e : Edit) : Offered t → Offered (t.edit generation e)
  | solid {t : Tree} : t.Solid → Offered t

/-- A tree that a call gives has no void nodes below its root. -/
lemma firm_of_parse {p q : Parser Checkpoint} {d : Document} {oldTree : Option Tree} {outside : Outside}
    {generation : Nat} {t : Tree} (hused : Used False p) (hold : ∀ t ∈ oldTree, Matches False d t)
    (hd : d.bytes.length ≤ limit) (hp : p.parse outside generation d oldTree = (.ok t, q)) :
    Green.EveryAll Label.Firm t.root.children := by
  obtain ⟨e, items, hb⟩ := hused.builds hold hd (fun hf => hf.elim) hp
  have ho := Source.ordered_chars d p.includedRanges
  have hplace := Source.coherent_positionAt d p.includedRanges
  obtain ⟨blanks, hc, -⟩ := hb.covers
  have horder := hc.inOrder ho (fun _ _ => Nat.zero_le _) (Nat.zero_le _)
    fun c hc => Source.stop_le_endOfInput ho hc
  obtain ⟨hs, -⟩ := firm_builtAll hplace hb.whole horder (Source.endOfInput_le_limit hd _)
  rw [hplace.zero] at hs
  have hchildren := congrArg Green.children hb.root
  rw [Green.children_bare] at hchildren
  refine Green.EveryAll.of_bare (fun _ hl => hl) ?_
  rw [hchildren]
  exact hs

/-- Such a tree is solid. -/
theorem Offered.isSolid {t : Tree} (h : Offered t) : t.Solid := by
  induction h with
  | parsed hused hold hd hp =>
    exact Green.solidAll_iff.2 ((firm_of_parse hused hold hd hp).mono fun _ hl => hl.solid)
  | edited generation e _ ih => exact ih.edit generation e
  | solid h => exact h

/-! ## Lists -/

/-- One round of a list: what it reads, the tokens that it leaves, and whether another round
follows. -/
def elementsRound (first : List Terminal) (element : List Token → Reading × Bool)
    (ts : List Token) : Reading × Bool :=
  match comments ts with
  | (before, []) => ((before, []), false)
  | (before, t :: rest) =>
    if t.kind = .rightParen then ((before, t :: rest), false)
    else if t.kind = .comma then ((before ++ [Item.node none .error [.token none t]], rest), true)
    else
      let ((items, rest), isElement) := element (t :: rest)
      if isElement then
        match comments rest with
        | (after, []) => ((before ++ items ++ after, []), false)
        | (after, u :: rest) =>
          if u.kind = .comma then ((before ++ items ++ after ++ [Item.token none u], rest), true)
          else if u.kind ∈ first then
            ((before ++ items ++ after ++ [Item.missing none .comma], u :: rest), true)
          else ((before ++ items ++ after, u :: rest), false)
      else ((before ++ items, rest), false)

section

variable {first : List Terminal} {element : List Token → Reading × Bool}

/-- A list is read round by round. -/
lemma elements_succ (count : Nat) (ts : List Token) :
    elements first element (count + 1) ts =
      let ((items, rest), goesOn) := elementsRound first element ts
      if goesOn then
        let (more, rest) := elements first element count rest
        (items ++ more, rest)
      else (items, rest) := by
  rw [elements, elementsRound]
  cases comments ts with
  | mk before pending =>
    cases pending with
    | nil => rfl
    | cons t rest =>
      dsimp only
      split
      · rfl
      split
      · simp
      generalize element (t :: rest) = read
      obtain ⟨⟨items, rest'⟩, isElement⟩ := read
      cases isElement with
      | false => rfl
      | true =>
        simp only [if_true]
        cases comments rest' with
        | mk after pending' =>
          cases pending' with
          | nil => rfl
          | cons u rest'' =>
            by_cases hu : u.kind = .comma
            · simp [hu]
            by_cases hf : u.kind ∈ first
            · simp [hu, hf]
            · simp [hu, hf]

/-- A round of a list that another round follows leaves fewer tokens. -/
lemma Consumes.length_round_lt (h : Consumes element) {ts : List Token}
    (hr : (elementsRound first element ts).2 = true) :
    (elementsRound first element ts).1.2.length < ts.length := by
  unfold elementsRound at hr ⊢
  cases hc : comments ts with
  | mk before pending =>
    rw [hc] at hr
    cases pending with
    | nil => cases hr
    | cons t rest =>
      have hlt := length_comments_cons_le hc
      have hshort := h.shorter (t :: rest)
      dsimp only at hr ⊢
      by_cases hparen : t.kind = .rightParen
      · simp [hparen] at hr
      by_cases hcomma : t.kind = .comma
      · simpa [hparen, hcomma] using hlt
      simp only [hparen, hcomma, if_false] at hr ⊢
      generalize element (t :: rest) = read at hr hshort ⊢
      obtain ⟨⟨items, rest'⟩, isElement⟩ := read
      cases isElement with
      | false => cases hr
      | true =>
        have hshort := hshort rfl
        dsimp only [List.length_cons] at hshort
        simp only [if_true] at hr ⊢
        cases hc' : comments rest' with
        | mk after pending' =>
          rw [hc'] at hr
          cases pending' with
          | nil => cases hr
          | cons u rest'' =>
            -- another round follows a comma, or without one what an element may start with
            have hlt' := length_comments_cons_le hc'
            by_cases hu : u.kind = .comma
            · simp only [hu, if_true]
              omega
            by_cases hf : u.kind ∈ first
            · simp only [hu, hf, if_true, if_false, List.length_cons]
              omega
            · simp [hu, hf] at hr

/-- A round of a list that another round follows takes tokens from the front. -/
lemma Consumes.exists_round (h : Consumes element) {ts : List Token}
    (hr : (elementsRound first element ts).2 = true) :
    ∃ us, us ≠ [] ∧ ts = us ++ (elementsRound first element ts).1.2 := by
  have hkeeps : (elementsRound first element ts).1.Keeps ts := by
    have hone := keeps_elements first element h.keeps 1 ts
    rw [elements_succ] at hone
    simpa [hr, elements] using hone
  have hlt := h.length_round_lt hr
  refine ⟨_, fun hnil => ?_, hkeeps.symm⟩
  have hlen := congrArg List.length hkeeps
  rw [hnil] at hlen
  simp at hlen
  omega

end

/-- The lists of the grammar, with what an element may start with: the arguments of calls, at any
depth, and parameters. -/
inductive Listed : List Terminal → (List Token → Reading × Bool) → Prop where
  | arguments (depth : Nat) :
    Listed expressionFirst fun ts =>
      ((expressionWithin depth ts).items, (expressionWithin depth ts).operand.isSome)
  | parameters : Listed parameterFirst parameter

/-- A reader of elements of a list of the grammar takes a token for each. -/
lemma Listed.consumes {first : List Terminal} {element : List Token → Reading × Bool}
    (h : Listed first element) : Consumes element := by
  cases h with
  | arguments depth => exact consumes_expressionWithin depth
  | parameters => exact consumes_parameter

/-! ## Characters that are taken -/

/-- Where some tokens begin that are still to be read; at the end of the input if there are none. -/
def nextByte (source : Source) (ts : List Token) : Nat :=
  (ts.head?.map (·.start)).getD source.endOfInput

/-- Whether some tokens cut up the last characters of a source. -/
def Ahead (source : Source) (ts : List Token) : Prop :=
  ∃ u cs blanks, source.chars = u ++ cs ∧ Covers cs ts blanks

/-- What is ahead of some tokens is ahead of the later ones. -/
lemma Ahead.of_append {source : Source} {ts us : List Token} (h : Ahead source (ts ++ us)) :
    Ahead source us := by
  obtain ⟨u, cs, blanks, hu, hc⟩ := h
  obtain ⟨mid, h1, h2⟩ := hc.split
  obtain ⟨v, rfl⟩ := h1.suffix
  exact ⟨u ++ v, mid, blanks, by rw [hu, List.append_assoc], h2⟩

/-- What is read from a byte on are tokens of the last characters. -/
lemma ahead_tokensFrom (source : Source) (byte : Nat) : Ahead source (tokensFrom source byte) := by
  obtain ⟨u, hu, -⟩ := source.exists_charsFrom byte
  obtain ⟨blanks, hc, -⟩ := Lexer.covers_lexAll .plain (source.charsFrom byte)
  exact ⟨u, _, blanks, hu, hc⟩

section

variable {d : Document} {ranges : List Span} {oldTree : Option Tree} {s s' : State}

/-- Tokens that are still to be read stand in order. -/
lemma Ahead.inOrder {ts : List Token} (h : Ahead (.ofDocument d ranges) ts) :
    InOrder 0 ts (Source.ofDocument d ranges).endOfInput := by
  have ho := Source.ordered_chars d ranges
  obtain ⟨u, cs, blanks, hu, hc⟩ := h
  have ho' := ho
  rw [hu] at ho'
  refine hc.inOrder ho'.append.2 (fun _ _ => Nat.zero_le _) (Nat.zero_le _) fun c hcs => ?_
  refine Source.stop_le_endOfInput ho ?_
  rw [hu]
  exact List.mem_append_right u hcs

/-- The first of them starts with a character. -/
lemma Ahead.exists_head {source : Source} {t : Token} {ts : List Token} (h : Ahead source (t :: ts)) :
    ∃ c ∈ source.chars, c.byte = t.start := by
  obtain ⟨u, cs, blanks, hu, hc⟩ := h
  obtain ⟨c, hmem, hstart⟩ := hc.exists_head
  refine ⟨c, ?_, hstart⟩
  rw [hu]
  exact List.mem_append_right u hmem

/-- The next token begins no earlier than those in order do. -/
lemma InOrder.le_nextByte {source : Source} {x : Nat} {ts : List Token}
    (h : InOrder x ts source.endOfInput) : x ≤ nextByte source ts := by
  cases ts with
  | nil => exact h
  | cons t ts => exact h.1

/-- The next token begins within the input. -/
lemma InOrder.nextByte_le {source : Source} {x : Nat} {ts : List Token}
    (h : InOrder x ts source.endOfInput) : nextByte source ts ≤ source.endOfInput := by
  cases ts with
  | nil => exact Nat.le_refl _
  | cons t ts =>
    obtain ⟨-, hlt, h⟩ := h
    have hle := h.le
    show t.start ≤ _
    omega

/-- Where tokens are taken from the front, a character is. -/
lemma Ahead.includes {ts us : List Token} (h : Ahead (.ofDocument d ranges) (ts ++ us))
    (hts : ts ≠ []) :
    (Source.ofDocument d ranges).Includes (nextByte (.ofDocument d ranges) (ts ++ us))
      (nextByte (.ofDocument d ranges) us) := by
  obtain ⟨t, ts, rfl⟩ := List.exists_cons_of_ne_nil hts
  obtain ⟨c, hc, hstart⟩ := h.exists_head
  obtain ⟨-, hlt, horder⟩ := h.inOrder
  rw [List.append_eq, inOrder_append] at horder
  have h1 := horder.1.le
  have h2 := horder.2.le_nextByte
  refine ⟨c, hc, Nat.le_of_eq hstart.symm, ?_⟩
  omega

/-- Where any tokens are taken from the front, the call does not go back. -/
lemma Ahead.le_nextByte {ts us : List Token} (h : Ahead (.ofDocument d ranges) (ts ++ us)) :
    nextByte (.ofDocument d ranges) (ts ++ us) ≤ nextByte (.ofDocument d ranges) us := by
  by_cases hts : ts = []
  · rw [hts]
    exact Nat.le_refl _
  · obtain ⟨c, -, hle, hlt⟩ := h.includes hts
    omega

/-- A node of a solid tree that may be taken over goes beyond the token where it starts. -/
lemma lt_stopByte_of_reusable {draft : Draft} {t : Token} {n : Node}
    (hold : ∀ t ∈ oldTree, t.Solid) (ht : t.start < limit)
    (hr : State.reusable? (.ofDocument d ranges) oldTree draft t = some n) :
    t.start < n.stopByte ∧ n.stopByte ≤ (Source.ofDocument d ranges).endOfInput := by
  obtain ⟨tree, htree, hmem, hstart, hstop, rule, hrule, hsymbol⟩ := exists_of_reusable hr
  have hinherits : ∀ m : Node, m.green.Every Label.Solid → ∀ c ∈ m.children, c.green.Every Label.Solid :=
    fun _ hm _ hc => Node.every_child (Node.everyAll_of_every hm) hc
  have hroot : ∀ c ∈ tree.rootNode.children, c.green.Every Label.Solid :=
    fun _ hc => Node.every_child (n := tree.rootNode) (Green.solidAll_iff.1 (hold tree htree)) hc
  obtain ⟨hsolid, -, hintact⟩ := Reuse.of_mem_candidatesBelow hinherits hroot hmem
  simp only [Reuse.isIntact, Bool.and_eq_true, Bool.not_eq_true'] at hintact
  have hpos := Node.label_of_every hsolid hintact.1 hintact.2 ⟨rule, mem_reusableAtTop hrule, hsymbol⟩
  exact ⟨hstart ▸ Node.lt_stopByte (hstart ▸ ht) hpos, hstop⟩

/-! ## Steps -/

/-- A step takes a character, or it closes a block and does not go back. -/
theorem Leads.takes (h : Ahead (.ofDocument d ranges) s.tokens) (hd : d.bytes.length ≤ limit)
    (hold : ∀ t ∈ oldTree, t.Solid) (hl : Leads (.ofDocument d ranges) oldTree s s') :
    Ahead (.ofDocument d ranges) s'.tokens ∧
      ((s'.draft.blocks.length < s.draft.blocks.length ∧
          s.byte (.ofDocument d ranges) ≤ s'.byte (.ofDocument d ranges)) ∨
        (Source.ofDocument d ranges).Includes (s.byte (.ofDocument d ranges))
            (s'.byte (.ofDocument d ranges)) ∧
          s'.draft.blocks.length ≤ s.draft.blocks.length + 1) := by
  cases hl.moves with
  | @closes b outer hb hk =>
    have hplain := leads_of_closes (.ofDocument d ranges) hb hk
    obtain ⟨ts, hts, -, -⟩ := hplain.exists_taken
    rw [hts] at h
    refine ⟨h.of_append, .inl ⟨?_, ?_⟩⟩
    · rw [hb]
      exact Nat.lt_succ_self _
    · show nextByte _ s.tokens ≤ _
      rw [hts]
      exact h.le_nextByte
  | @reuses t rest n hp _ hr =>
    have hsplit : tokensOf (comments s.tokens).1 ++ (t :: rest) = s.tokens := by
      rw [← hp]
      exact s.comments_append
    rw [← hsplit] at h
    obtain ⟨c, hc, hstart⟩ := h.of_append.exists_head
    have ho := Source.ordered_chars d ranges
    have hwidth := SourceChar.byte_lt_stop (ho.width c hc)
    have hstop := Source.stop_le_endOfInput ho hc
    have hsize := Source.endOfInput_le_size d ranges
    obtain ⟨hlt, hle⟩ := lt_stopByte_of_reusable hold (by omega) hr
    have hback := h.le_nextByte
    rw [hsplit] at hback
    have hback : s.byte (.ofDocument d ranges) ≤ t.start := hback
    have hnext : n.stopByte ≤ nextByte (.ofDocument d ranges)
        (tokensFrom (.ofDocument d ranges) n.stopByte) := le_start_tokensFrom hle
    refine ⟨ahead_tokensFrom _ _, .inr ⟨⟨c, hc, by omega, ?_⟩, Nat.le_succ _⟩⟩
    show c.byte < nextByte _ (tokensFrom _ n.stopByte)
    omega
  | @reads t rest piece rest' hp hk _ hr =>
    have hplain := leads_reads (.ofDocument d ranges) hp hk hr
    obtain ⟨ts, hts, -, -⟩ := hplain.exists_taken
    have hblocks := hplain.length_blocks_le
    have hne : ts ≠ [] := by
      -- what remains gets less with every step, and a piece that is read closes no block
      rintro rfl
      have hlt := remaining_lt hplain
      have hle := s.here.le_length_blocks_place piece
      simp only [State.remaining, hts, List.nil_append, Draft.blocks_after, State.blocks_here] at hlt hle
      omega
    rw [hts] at h
    refine ⟨h.of_append, .inr ⟨?_, hblocks⟩⟩
    show (Source.ofDocument d ranges).Includes (nextByte _ s.tokens) _
    rw [hts]
    exact h.includes hne

/-- The same of any number of steps. -/
lemma Ahead.steps (h : Ahead (.ofDocument d ranges) s.tokens) (hd : d.bytes.length ≤ limit)
    (hold : ∀ t ∈ oldTree, t.Solid) (hs : Steps (.ofDocument d ranges) oldTree s s') :
    Ahead (.ofDocument d ranges) s'.tokens := by
  induction hs with
  | refl => exact h
  | tail _ hl ih => exact (hl.takes ih hd hold).1

/-- So every step leaves less to do. -/
lemma Leads.left_lt (h : Ahead (.ofDocument d ranges) s.tokens) (hd : d.bytes.length ≤ limit)
    (hold : ∀ t ∈ oldTree, t.Solid) (hl : Leads (.ofDocument d ranges) oldTree s s') :
    s'.left (.ofDocument d ranges) < s.left (.ofDocument d ranges) := by
  unfold State.left
  rcases (hl.takes h hd hold).2 with ⟨hblocks, hle⟩ | ⟨⟨c, hc, hx, hy⟩, hblocks⟩
  · have hcount : (Source.ofDocument d ranges).chars.countP
        (fun c => s'.byte (.ofDocument d ranges) ≤ c.byte) ≤
        (Source.ofDocument d ranges).chars.countP fun c => s.byte (.ofDocument d ranges) ≤ c.byte :=
      List.countP_mono_left fun c _ hc => by
        simp only [decide_eq_true_eq] at hc ⊢
        omega
    omega
  · have hcount := countP_byte_lt hc hx hy
    omega

end

/-! ## Calls -/

section

variable {p : Parser Checkpoint} {d : Document} {oldTree : Option Tree}

/-- A call ends, whatever it is interrupted by, if its old tree was parsed, edited or is solid: it
gives a tree or is cancelled. Each of its steps takes a character, unless it closes a block, and so
does each round of a list that another round follows. -/
theorem parse_terminates (hl : p.language = some language) (hd : d.bytes.length ≤ limit)
    (hold : ∀ t ∈ oldTree, Offered t) (outside : Outside) (generation : Nat) :
    ((∃ t q, p.parse outside generation d oldTree = (.ok t, q)) ∨
      ∃ reason q, p.parse outside generation d oldTree = (.error (.error (.cancelled reason)), q)) ∧
    ∀ s, Steps (.ofDocument d p.includedRanges) (oldTree.filter (p.admits language)) (startOf p d) s →
      (∀ s', Leads (.ofDocument d p.includedRanges) (oldTree.filter (p.admits language)) s s' →
        s'.draft.blocks.length < s.draft.blocks.length ∨
        (Source.ofDocument d p.includedRanges).Includes (s.byte (.ofDocument d p.includedRanges))
          (s'.byte (.ofDocument d p.includedRanges))) ∧
      ∀ first element ts, Listed first element → ts <:+ s.tokens →
        (elementsRound first element ts).2 = true →
        (Source.ofDocument d p.includedRanges).Includes (nextByte (.ofDocument d p.includedRanges) ts)
          (nextByte (.ofDocument d p.includedRanges) (elementsRound first element ts).1.2) := by
  have hsolid : ∀ t ∈ oldTree.filter (p.admits language), t.Solid := fun t ht =>
    (hold t (Option.filter_eq_some_iff.1 ht).1).isSolid
  have hstart : Ahead (.ofDocument d p.includedRanges) (startOf p d).tokens := by
    unfold startOf
    cases (p.suspended.filter (p.continues language d)).map (·.progress) with
    | none => exact ahead_tokensFrom _ 0
    | some c => exact ahead_tokensFrom _ c.byte
  refine ⟨?_, fun s hs => ⟨fun s' hleads => ?_, fun first element ts hlist hts hround => ?_⟩⟩
  · have hbound : (startOf p d).left (.ofDocument d p.includedRanges) <
        stepBound (.ofDocument d p.includedRanges) (startOf p d) + outside.patience := by
      have hcount : (Source.ofDocument d p.includedRanges).chars.countP
          (fun c => (startOf p d).byte (.ofDocument d p.includedRanges) ≤ c.byte) ≤
          (Source.ofDocument d p.includedRanges).chars.length := List.countP_le_length
      simp only [State.left, stepBound]
      omega
    rcases parse_cases_of_measure outside generation d oldTree hl
        (fun s => s.left (.ofDocument d p.includedRanges))
        (fun _ _ hs hleads => hleads.left_lt (hstart.steps hd hsolid hs) hd hsolid) hbound with
      ⟨s, parts, t, -, -, -, hp⟩ | ⟨s, reason, -, -, hp⟩
    · exact .inl ⟨t, _, hp⟩
    · exact .inr ⟨reason, _, hp⟩
  · rcases (hleads.takes (hstart.steps hd hsolid hs) hd hsolid).2 with ⟨hblocks, -⟩ | ⟨htakes, -⟩
    · exact .inl hblocks
    · exact .inr htakes
  · obtain ⟨u, hu⟩ := hts
    have hahead := hstart.steps hd hsolid hs
    rw [← hu] at hahead
    obtain ⟨us, hne, hus⟩ := hlist.consumes.exists_round hround
    have hahead := hahead.of_append
    generalize (elementsRound first element ts).1.2 = rest at hus ⊢
    subst hus
    exact hahead.includes hne

/-- The tree of `x;` may be edited in any way, and a call that is given it still ends. -/
theorem parse_terminates_edited :
    ∃ t, Offered t ∧ ∀ e outside, ∃ result q,
      plainParser.parse outside 2 ⟨[120, 59], .utf8⟩ (some (t.edit 1 e)) = (result, q) ∧
        result ≠ .error .stalled := by
  have hused : Used False plainParser := .new rfl rfl
  obtain ⟨-, -, t, -, -, -, hp⟩ := @parse_of_neverFires plainParser stillWorld ⟨[120, 59], .utf8⟩ 0 rfl
    neverFires_plainParser
  have ht : Offered t := .parsed hused (fun _ ht => by cases ht) (by decide) hp
  refine ⟨t, ht, fun e outside => ?_⟩
  have hold : ∀ t' ∈ some (t.edit 1 e), Offered t' := fun t' ht' => by
    obtain rfl := Option.some.inj ht'
    exact ht.edited 1 e
  rcases (@parse_terminates plainParser ⟨[120, 59], .utf8⟩ _ rfl (by decide) hold outside 2).1 with
    ⟨t', q, hp'⟩ | ⟨reason, q, hp'⟩
  · exact ⟨_, q, hp', nofun⟩
  · exact ⟨_, q, hp', nofun⟩

end

/-! ## Void nodes -/

/-- Whether a state is about to take over a node that ends where it stands: a void node without
padding comes next. -/
structure State.Caught (source : Source) (oldTree : Option Tree) (s : State) : Prop where
  tokens : tokensFrom source s.draft.lastStop = s.tokens
  reusable : ∃ t rest n, s.tokens = t :: rest ∧ t.isComment = false ∧ t.kind ≠ .rightBrace ∧
    State.reusable? source oldTree s.draft t = some n ∧ n.stopByte = s.draft.lastStop

section

variable {source : Source} {oldTree : Option Tree} {s : State}

/-- Such a state leads back to itself, with one more node in its draft. -/
lemma State.Caught.leads (h : s.Caught source oldTree) :
    ∃ s', Leads source oldTree s s' ∧ s'.Caught source oldTree := by
  obtain ⟨htokens, t, rest, n, hts, hcomment, hbrace, hr, hstop⟩ := h
  have hcomments : comments s.tokens = ([], t :: rest) := by
    rw [hts]
    exact comments_of_commentAhead (by simpa [commentAhead] using hcomment)
  have hpending : s.pending = t :: rest := by rw [State.pending, hcomments]
  have hhere : s.here = s.draft := by
    rw [State.here, hpending, hcomments, hts]
    simp [taken, Draft.add, Draft.after]
  rcases step_cases source oldTree s with ⟨-, hnil, -⟩ | ⟨checks, s', hn, hm⟩
  · rw [hpending] at hnil
    cases hnil
  refine ⟨s', ⟨checks, hn⟩, ?_⟩
  cases hm with
  | closes _ hk =>
    have ha : ahead? s.tokens = some t.kind := by
      rw [show ahead? s.tokens = s.pending.head?.map (·.kind) from rfl, hpending]
      rfl
    exact absurd (hk _ ha) hbrace
  | reads hp _ hnone _ =>
    obtain ⟨rfl, rfl⟩ := List.cons.inj (hpending.symm.trans hp)
    rw [hhere, hr] at hnone
    cases hnone
  | reuses hp _ hr' =>
    obtain ⟨rfl, rfl⟩ := List.cons.inj (hpending.symm.trans hp)
    rw [hhere, hr] at hr'
    obtain rfl := Option.some.inj hr'
    rw [hhere, hstop]
    refine ⟨rfl, t, rest, n, htokens.trans hts, hcomment, hbrace, ?_, hstop⟩
    exact hr

/-- A call that comes to such a state is never done, unless it is told to stop. -/
theorem State.Caught.stalled (h : s.Caught source oldTree) (generation : Nat) {probes : Nat → Probe}
    {i : Interrupt} (hi : NeverFires probes i) (steps : Nat) (mayHalt : Bool) :
    (run generation probes source oldTree steps mayHalt s i).1 = .stalled := by
  induction steps generalizing s i mayHalt with
  | zero => rfl
  | succ steps ih =>
    obtain ⟨s', ⟨checks, hn⟩, h'⟩ := h.leads
    have h1 : (i.poll probes).isHalted = false := hi 1
    have h2 : ((i.poll probes).pollTimes probes checks).isHalted = false := hi (checks + 1)
    unfold run
    simp only [hn, h1, h2, Bool.and_false, Bool.false_eq_true, if_false]
    exact ih h' (hi.pollTimes (checks + 1)) true

end

/-- So a call that starts in such a state is given up, however long it is waited for. -/
lemma State.Caught.parse_stalled {p : Parser Checkpoint} {d : Document} {oldTree : Option Tree}
    {outside : Outside} (hl : p.language = some language)
    (hi : NeverFires (p.probes outside) (.start p.timeout)) (generation : Nat)
    (h : (startOf p d).Caught (.ofDocument d p.includedRanges) (oldTree.filter (p.admits language))) :
    (p.parse outside generation d oldTree).1 = .error .stalled := by
  have hrun : (engine generation (p.probes outside) (p.task outside language d oldTree)
      (.start p.timeout)).1 = .stalled := h.stalled generation hi _ _
  rw [parse_eq hl]
  generalize engine generation (p.probes outside) _ (.start p.timeout) = r at hrun ⊢
  obtain ⟨outcome, interrupt⟩ := r
  dsimp only at hrun
  subst hrun
  rfl

/-- A tree of `x;` can be put together in which a void declaration comes before the identifier, inside
of a wider node. A call that is given it never ends. -/
theorem exists_stalled :
    ∃ b t, (Builder.new grammar 0).Takes [.startNode Rule.document.symbol none,
        .startNode Rule.callExpression.symbol none,
        .leaf ⟨Rule.declaration.symbol, none, .zero, .zero, 0, false⟩,
        .leaf ⟨Terminal.identifier.symbol, none, .zero, ⟨2, ⟨0, 2⟩⟩, 0, false⟩,
        .finishNode, .finishNode] b ∧
      b.finish ⟨2, ⟨0, 2⟩⟩ [.document] = .ok t ∧ plainParser.admits language t = true ∧
      ∀ patience generation, (plainParser.parse ⟨fun _ _ => 0, fun _ => 0, patience⟩ generation
        ⟨[120, 59], .utf8⟩ (some t)).1 = .error .stalled := by
  have hzero : Length.zero.Precedes .zero := Length.Counted.zero.refl
  have hword : Length.zero.Precedes ⟨2, ⟨0, 2⟩⟩ :=
    ⟨.inr ⟨by decide, by decide⟩, by decide, by decide, by decide⟩
  refine ⟨_, _, .cons trivial rfl (.cons trivial rfl (.cons ⟨hzero, hzero⟩ rfl
    (.cons ⟨hzero, hword⟩ rfl (.cons trivial rfl (.cons trivial rfl .nil))))), rfl, by decide,
    fun patience generation => ?_⟩
  refine State.Caught.parse_stalled rfl (neverFires_of_flag fun _ => rfl) generation ?_
  exact ⟨rfl, ⟨.identifier, 0, 1, 1⟩, [⟨.semicolon, 1, 2, 0⟩], _, by decide, rfl, by decide, rfl, rfl⟩

end C

end Reparse
