import Mathlib.Data.List.Induction
import Reparse.Node.Walk
import Reparse.Proofs.Agreement

/-!
# Cursors

A cursor stands for a path of child numbers below the node that it was last made for. Whatever moves it
makes, it stands on the node at that path, and it can move exactly where the path can
(`Cursor.leads_moved`).
-/

namespace Reparse

/-! ## Laying out -/

namespace Green

/-- A child after another one starts after its own padding behind it. -/
lemma getElem?_layOutAfter_succ {stop : Length} {cs : List (Child Green)} {i : Nat} {c : Child Green}
    {start : Length} (h : (layOutAfter stop cs)[i]? = some (c, start)) :
    (layOutAfter stop cs)[i + 1]? = cs[i + 1]?.map fun next =>
      (next, start + c.node.label.size + next.node.label.padding) := by
  induction cs generalizing stop i with
  | nil => cases h
  | cons d cs ih =>
    cases i with
    | zero =>
      obtain ⟨rfl, rfl⟩ := Prod.mk.inj (Option.some.inj h)
      cases cs <;> rfl
    | succ i => exact ih h

/-- A child starts after the one before it and its own padding. -/
lemma getElem?_layOut_succ {start₀ : Length} {cs : List (Child Green)} {i : Nat} {c : Child Green}
    {start : Length} (h : (layOut start₀ cs)[i]? = some (c, start)) :
    (layOut start₀ cs)[i + 1]? = cs[i + 1]?.map fun next =>
      (next, start + c.node.label.size + next.node.label.padding) := by
  cases cs with
  | nil => cases h
  | cons d cs =>
    cases i with
    | zero =>
      obtain ⟨rfl, rfl⟩ := Prod.mk.inj (Option.some.inj h)
      cases cs <;> rfl
    | succ i => exact getElem?_layOutAfter_succ h

end Green

/-! ## Where a cursor stands -/

namespace Node

/-- The child with a given number, from where the children are laid out. -/
lemma child?_eq (n : Node) (i : Nat) :
    n.child? i = (Green.layOut n.start n.green.children)[i]?.map fun e => ⟨n.tree, e.1.node, e.2⟩ := by
  simp [child?, children, entries, List.getElem?_map, Function.comp_def]

/-- A path may be followed in two parts. -/
lemma descend?_append (n : Node) (path rest : List Nat) :
    n.descend? (path ++ rest) = (n.descend? path).bind fun m => m.descend? rest := by
  induction path generalizing n with
  | nil => rfl
  | cons i path ih =>
    rw [List.cons_append, descend?, descend?, Option.bind_assoc]
    exact Option.bind_congr fun c _ => ih c

/-- The last number of a path leads to a child. -/
lemma descend?_concat (n : Node) (path : List Nat) (i : Nat) :
    n.descend? (path ++ [i]) = (n.descend? path).bind fun m => m.child? i := by
  rw [descend?_append]
  refine Option.bind_congr fun m _ => ?_
  rw [descend?]
  cases m.child? i <;> rfl

/-- The field of the last step of a path of child numbers. -/
def fieldAlong? (n : Node) (path : List Nat) : Option FieldId :=
  path.getLast?.bind fun i => (n.descend? path.dropLast).bind fun p => p.fieldForChild? i

end Node

namespace Cursor

/-- Whether one entry of a cursor is a child of the node of another one. -/
def Entry.IsChild (p e : Entry) : Prop :=
  (Green.layOut p.start p.green.children)[e.index]? = some (⟨e.field, e.green⟩, e.start)

/-- Whether the entries of a cursor lead from a node down along a path of child numbers. -/
inductive Leads (n : Node) : Entry → List Entry → List Nat → Prop where
  | top : Leads n ⟨n.green, n.start, 0, none⟩ [] []
  | child {p e above path} : p.IsChild e → Leads n p above path → Leads n e (p :: above) (path ++ [e.index])

/-- Whether a cursor follows a path of child numbers from a node down. -/
structure Follows (n : Node) (path : List Nat) (c : Cursor) : Prop where
  tree : c.tree = n.tree
  leads : Leads n c.top c.above path

/-- Whether a cursor stands at a path of child numbers below a node: on the node that the path leads to,
as deep as the path is long, and as the child with the number and under the field of the last step. -/
structure StandsAt (n : Node) (path : List Nat) (c : Cursor) : Prop where
  node : n.descend? path = some c.node
  path_eq : c.path = path
  depth : c.depth = path.length
  index : ∀ i ∈ path.getLast?, c.top.index = i
  field : c.field? = n.fieldAlong? path

section

variable {n : Node} {path : List Nat} {c : Cursor} {p e : Entry} {above : List Entry}

/-- A new cursor follows its node. -/
lemma Follows.ofNode (n : Node) : Follows n [] (.ofNode n) := ⟨rfl, .top⟩

/-- The entry of a child is where the node has that child. -/
lemma Entry.IsChild.child? (h : p.IsChild e) (t : Tree) :
    (Node.mk t p.green p.start).child? e.index = some ⟨t, e.green, e.start⟩ := by
  rw [Node.child?_eq, h]
  rfl

/-- It has the field of that child. -/
lemma Entry.IsChild.field (h : p.IsChild e) (t : Tree) :
    (Node.mk t p.green p.start).fieldForChild? e.index = e.field := by
  have hc := congrArg (Option.map Prod.fst) h
  rw [← List.getElem?_map, Green.map_fst_layOut] at hc
  rw [Node.fieldForChild?, hc]
  rfl

/-- Entries lead to the node at their path. -/
lemma Leads.descend? (h : Leads n e above path) : n.descend? path = some ⟨n.tree, e.green, e.start⟩ := by
  induction h with
  | top => rfl
  | child hc _ ih => rw [Node.descend?_concat, ih, Option.bind_some, hc.child?]

/-- There is an entry for each step of the path. -/
lemma Leads.length (h : Leads n e above path) : above.length = path.length := by
  induction h with
  | top => rfl
  | child _ _ ih => rw [List.length_cons, List.length_append, ih, List.length_singleton]

/-- The numbers of the entries make up the path. -/
lemma Leads.map_index (h : Leads n e above path) :
    (e :: above).dropLast.reverse.map (·.index) = path := by
  induction h with
  | top => rfl
  | child _ _ ih => rw [List.dropLast_cons_cons, List.reverse_cons, List.map_append, ih, List.map_singleton]

/-- A cursor that follows a path stands at its end. -/
lemma Follows.standsAt (h : Follows n path c) : StandsAt n path c := by
  obtain ⟨t, e, above⟩ := c
  obtain ⟨rfl, hl⟩ := h
  refine ⟨hl.descend?, hl.map_index, hl.length, fun i hi => ?_, ?_⟩
  · cases hl with
    | top => cases hi
    | child => simpa using hi
  · cases hl with
    | top => rfl
    | child hc hl =>
      rw [Node.fieldAlong?, List.getLast?_concat, Option.bind_some, List.dropLast_concat, hl.descend?,
        Option.bind_some, hc.field]
      rfl

/-- A cursor that goes down to a child follows the path to that child. -/
lemma Follows.down (h : Follows n path c) {i : Nat} {child : Child Green} {start : Length}
    (hc : (Green.layOut c.top.start c.top.green.children)[i]? = some (child, start)) :
    Follows n (path ++ [i])
      { c with top := ⟨child.node, start, i, child.field⟩, above := c.top :: c.above } :=
  ⟨h.tree, .child (e := ⟨child.node, start, i, child.field⟩) hc h.leads⟩

/-! ## Moves -/

/-- What a search for a child goes through: all children, with their starts and numbers. -/
lemma childWhere?_eq_some {q : Nat → Length → Bool} {c' : Cursor} (h : c.childWhere? q = some c') :
    ∃ i child start, (Green.layOut c.top.start c.top.green.children)[i]? = some (child, start) ∧
      q i (start + child.node.label.size) = true ∧
      (∀ j < i, ∀ child' start',
        (Green.layOut c.top.start c.top.green.children)[j]? = some (child', start') →
          q j (start' + child'.node.label.size) = false) ∧
      c' = { c with top := ⟨child.node, start, i, child.field⟩, above := c.top :: c.above } := by
  obtain ⟨⟨⟨child, start⟩, i⟩, hfind, rfl⟩ := Option.map_eq_some_iff.1 h
  obtain ⟨hq, k, hk, hget, hleast⟩ := List.find?_eq_some_iff_getElem.1 hfind
  rw [List.getElem_zipIdx, Nat.zero_add] at hget
  obtain ⟨hplace, rfl⟩ := Prod.mk.inj hget
  refine ⟨k, child, start, List.getElem?_eq_some_iff.2 ⟨_, hplace⟩, hq,
    fun j hj child' start' hj' => ?_, rfl⟩
  obtain ⟨hlt, hj'⟩ := List.getElem?_eq_some_iff.1 hj'
  have hfalse := hleast j hj
  rw [List.getElem_zipIdx, Nat.zero_add, hj'] at hfalse
  simpa using hfalse

/-- Where no child is found, none of them fits. -/
lemma childWhere?_eq_none {q : Nat → Length → Bool} (h : c.childWhere? q = none) {i : Nat}
    {child : Child Green} {start : Length}
    (hc : (Green.layOut c.top.start c.top.green.children)[i]? = some (child, start)) :
    q i (start + child.node.label.size) = false := by
  have hall := List.find?_eq_none.1 (Option.map_eq_none_iff.1 h) ((child, start), i)
    (List.mk_mem_zipIdx_iff_getElem?.2 hc)
  simpa using hall

end

/-- What a cursor may be asked for. -/
inductive Move where
  | firstChild
  | nextSibling
  | prevSibling
  | parent
  | firstChildForByte (byte : Nat)
  | firstChildForPoint (point : Point)
  /-- To stand for a node anew. -/
  | reset (n : Node)

/-- The cursor after a move, if the move is possible. -/
def move? (c : Cursor) : Move → Option Cursor
  | .firstChild => c.firstChild?
  | .nextSibling => c.nextSibling?
  | .prevSibling => c.prevSibling?
  | .parent => c.parent?
  | .firstChildForByte byte => c.firstChildForByte? byte
  | .firstChildForPoint point => c.firstChildForPoint? point
  | .reset n => some (.ofNode n)

/-- The cursor after some moves, of which those that are not possible change nothing. -/
def moved (n : Node) (moves : List Move) : Cursor := moves.foldl (fun c m => (c.move? m).getD c) (.ofNode n)

/-- What a move does to a path of child numbers below a node. -/
inductive Moves : Node → List Nat → Move → Node → List Nat → Prop where
  | firstChild {n path m} : n.descend? (path ++ [0]) = some m → Moves n path .firstChild n (path ++ [0])
  | nextSibling {n path i m} :
    n.descend? (path ++ [i + 1]) = some m → Moves n (path ++ [i]) .nextSibling n (path ++ [i + 1])
  | prevSibling {n path i} : Moves n (path ++ [i + 1]) .prevSibling n (path ++ [i])
  | parent {n path i} : Moves n (path ++ [i]) .parent n path
  | firstChildForByte {n path i m byte} :
    n.descend? (path ++ [i]) = some m → byte < m.stopByte →
    (∀ j < i, ∀ m', n.descend? (path ++ [j]) = some m' → ¬ byte < m'.stopByte) →
    Moves n path (.firstChildForByte byte) n (path ++ [i])
  | firstChildForPoint {n path i m point} :
    n.descend? (path ++ [i]) = some m → point < m.stopPoint →
    (∀ j < i, ∀ m', n.descend? (path ++ [j]) = some m' → ¬ point < m'.stopPoint) →
    Moves n path (.firstChildForPoint point) n (path ++ [i])
  | reset {n path m} : Moves n path (.reset m) m []

/-- Where some moves lead: a path of child numbers below the node that was last reset to. -/
inductive Reaches (n : Node) : List Move → Node → List Nat → Prop where
  | none : Reaches n [] n []
  | made {moves m base path base' path'} :
    Reaches n moves base path → Moves base path m base' path' → Reaches n (moves ++ [m]) base' path'
  | refused {moves m base path} :
    Reaches n moves base path → (∀ base' path', ¬ Moves base path m base' path') →
    Reaches n (moves ++ [m]) base path

section

variable {n : Node} {path : List Nat} {c : Cursor} {p e : Entry} {above : List Entry}

/-- The children of the node that a cursor stands on, by their paths. -/
lemma Follows.descend?_concat (h : Follows n path c) (i : Nat) :
    n.descend? (path ++ [i]) = (Green.layOut c.top.start c.top.green.children)[i]?.map fun e =>
      ⟨n.tree, e.1.node, e.2⟩ := by
  rw [Node.descend?_concat, h.standsAt.node, Option.bind_some, Node.child?_eq]
  simp only [Cursor.node, h.tree]

/-- A search for the first child that ends beyond a place is a move to the least path. -/
lemma Follows.childWhere? (h : Follows n path c) {q : Length → Bool} {c' : Cursor}
    (hc : c.childWhere? (fun _ stop => q stop) = some c') :
    ∃ i m, n.descend? (path ++ [i]) = some m ∧ q m.stop = true ∧
      (∀ j < i, ∀ m', n.descend? (path ++ [j]) = some m' → ¬ q m'.stop = true) ∧
      Follows n (path ++ [i]) c' := by
  obtain ⟨i, child, start, hi, hq, hleast, rfl⟩ := childWhere?_eq_some hc
  refine ⟨i, ⟨n.tree, child.node, start⟩, by rw [h.descend?_concat, hi]; rfl, hq,
    fun j hj m' hm' => ?_, h.down hi⟩
  rw [h.descend?_concat] at hm'
  obtain ⟨⟨child', start'⟩, hj', rfl⟩ := Option.map_eq_some_iff.1 hm'
  exact Bool.eq_false_iff.1 (hleast j hj child' start' hj')

/-- Where a cursor finds no child, no node a step further down fits. -/
lemma Follows.childWhere?_none (h : Follows n path c) {q : Length → Bool}
    (hc : c.childWhere? (fun _ stop => q stop) = none) {i : Nat} {m : Node}
    (hm : n.descend? (path ++ [i]) = some m) : ¬ q m.stop = true := by
  rw [h.descend?_concat] at hm
  obtain ⟨⟨child, start⟩, hi, rfl⟩ := Option.map_eq_some_iff.1 hm
  exact Bool.eq_false_iff.1 (childWhere?_eq_none hc hi)

/-- A cursor moves as the path does that it follows. -/
lemma Follows.made {m : Move} {c' : Cursor} (h : Follows n path c) (hm : c.move? m = some c') :
    ∃ base path', Moves n path m base path' ∧ Follows base path' c' := by
  cases m with
  | firstChild =>
    obtain ⟨i, child, start, hi, -, hleast, rfl⟩ :=
      childWhere?_eq_some (q := fun _ _ => true) (show c.childWhere? _ = some c' from hm)
    have hzero : i = 0 := by
      by_contra hne
      have hlt : 0 < (Green.layOut c.top.start c.top.green.children).length :=
        Nat.lt_of_le_of_lt (Nat.zero_le i) (List.getElem?_eq_some_iff.1 hi).1
      exact Bool.noConfusion (hleast 0 (Nat.pos_of_ne_zero hne) _ _ (List.getElem?_eq_getElem hlt))
    subst hzero
    exact ⟨n, _, .firstChild (by rw [h.descend?_concat, hi]; rfl), h.down hi⟩
  | nextSibling =>
    obtain ⟨t, e, above⟩ := c
    obtain ⟨rfl, hl⟩ := h
    cases hl with
    | top => cases hm
    | @child p _ above path hc hl =>
      obtain ⟨next, hnext, rfl⟩ := Option.map_eq_some_iff.1 hm
      have hget := (Green.getElem?_layOut_succ hc).trans (congrArg _ hnext)
      have hp : Follows n path ⟨n.tree, p, above⟩ := ⟨rfl, hl⟩
      exact ⟨n, _, .nextSibling (by rw [hp.descend?_concat, hget]; rfl), hp.down hget⟩
  | prevSibling =>
    have hm : c.prevSibling? = some c' := hm
    obtain ⟨t, e, above⟩ := c
    obtain ⟨rfl, hl⟩ := h
    rw [prevSibling?] at hm
    split at hm
    · cases hm
    · rename_i hne
      obtain ⟨k, hk⟩ := Nat.exists_eq_succ_of_ne_zero hne
      cases hl with
      | top => cases hm
      | @child p _ above path hc hl =>
        have hp : Follows n path ⟨n.tree, p, above⟩ := ⟨rfl, hl⟩
        have hk : e.index = k + 1 := hk
        obtain ⟨i, child, start, hi, hq, -, rfl⟩ := childWhere?_eq_some (c := ⟨n.tree, p, above⟩)
          (q := fun index _ => index = e.index - 1) hm
        obtain rfl : i = k := by
          have := of_decide_eq_true hq
          omega
        rw [show (⟨n.tree, e, p :: above⟩ : Cursor).top.index = i + 1 from hk]
        exact ⟨n, _, .prevSibling, hp.down hi⟩
  | parent =>
    obtain ⟨t, e, above⟩ := c
    obtain ⟨rfl, hl⟩ := h
    cases hl with
    | top => cases hm
    | child hc hl =>
      obtain rfl := Option.some.inj hm
      exact ⟨n, _, .parent, rfl, hl⟩
  | firstChildForByte byte =>
    obtain ⟨i, m, hm, hstop, hleast, hc'⟩ := h.childWhere? (q := fun stop => byte < stop.bytes) hm
    exact ⟨n, _, .firstChildForByte hm (of_decide_eq_true hstop) fun j hj m' hm' hlt =>
      hleast j hj m' hm' (decide_eq_true hlt), hc'⟩
  | firstChildForPoint point =>
    obtain ⟨i, m, hm, hstop, hleast, hc'⟩ := h.childWhere? (q := fun stop => point < stop.extent) hm
    exact ⟨n, _, .firstChildForPoint hm (of_decide_eq_true hstop) fun j hj m' hm' hlt =>
      hleast j hj m' hm' (decide_eq_true hlt), hc'⟩
  | reset m =>
    obtain rfl := Option.some.inj hm
    exact ⟨m, [], .reset, .ofNode m⟩

/-- A cursor that cannot move follows a path that cannot. -/
lemma Follows.refused {m : Move} {base : Node} {path' : List Nat} (h : Follows n path c)
    (hm : c.move? m = none) : ¬ Moves n path m base path' := by
  intro hmoves
  cases hmoves with
  | firstChild hd => exact h.childWhere?_none (q := fun _ => true) hm hd rfl
  | @nextSibling path i _ hd =>
    obtain ⟨t, e, above⟩ := c
    obtain ⟨rfl, hl⟩ := h
    generalize hpath : path ++ [i] = whole at hl
    cases hl with
    | top => simp at hpath
    | @child p _ above path' hc hl =>
      obtain ⟨rfl, hi⟩ := List.append_inj' hpath rfl
      obtain rfl := (List.cons.inj hi).1
      have hp : Follows n path ⟨n.tree, p, above⟩ := ⟨rfl, hl⟩
      rw [hp.descend?_concat, Green.getElem?_layOut_succ hc, Option.map_eq_none_iff.1 hm] at hd
      cases hd
  | @prevSibling path i =>
    have hm : c.prevSibling? = none := hm
    obtain ⟨t, e, above⟩ := c
    obtain ⟨rfl, hl⟩ := h
    generalize hpath : path ++ [i + 1] = whole at hl
    cases hl with
    | top => simp at hpath
    | @child p _ above path' hc hl =>
      obtain ⟨rfl, hi⟩ := List.append_inj' hpath rfl
      have hi : i + 1 = e.index := (List.cons.inj hi).1
      have hne : e.index ≠ 0 := by omega
      have hlt : i < (Green.layOut p.start p.green.children).length := by
        have hlast := (List.getElem?_eq_some_iff.1 hc).1
        dsimp only at hlast
        omega
      rw [prevSibling?, if_neg hne] at hm
      have hfalse := childWhere?_eq_none (c := ⟨n.tree, p, above⟩)
        (q := fun index _ => index = e.index - 1) hm (List.getElem?_eq_getElem hlt)
      have hdiffer : i ≠ e.index - 1 := of_decide_eq_false hfalse
      omega
  | @parent path' i =>
    obtain ⟨t, e, above⟩ := c
    obtain ⟨rfl, hl⟩ := h
    generalize hpath : path' ++ [i] = whole at hl
    cases hl with
    | top => simp at hpath
    | child => cases hm
  | firstChildForByte hd hlt _ =>
    exact h.childWhere?_none (q := fun stop => _ < stop.bytes) hm hd (decide_eq_true hlt)
  | firstChildForPoint hd hlt _ =>
    exact h.childWhere?_none (q := fun stop => _ < stop.extent) hm hd (decide_eq_true hlt)
  | reset => cases hm

/-- Whatever moves a cursor makes, it follows the path that they lead to. -/
lemma exists_follows_moved (n : Node) (moves : List Move) :
    ∃ base path, Reaches n moves base path ∧ Follows base path (moved n moves) := by
  induction moves using List.reverseRec with
  | nil => exact ⟨n, [], .none, .ofNode n⟩
  | append_singleton moves m ih =>
    obtain ⟨base, path, hr, hf⟩ := ih
    rw [moved, List.foldl_append]
    cases hm : (moved n moves).move? m with
    | none =>
      refine ⟨base, path, .refused hr fun _ _ => hf.refused hm, ?_⟩
      rw [List.foldl_cons, List.foldl_nil, ← moved, hm]
      exact hf
    | some c' =>
      obtain ⟨base', path', hmoves, hf'⟩ := hf.made hm
      refine ⟨base', path', .made hr hmoves, ?_⟩
      rw [List.foldl_cons, List.foldl_nil, ← moved, hm]
      exact hf'

end

end Cursor

end Reparse
