import Reparse.Proofs.Starts

/-!
# Marks

What the marks of an edited tree say. A node of a tree that was parsed and edited along with its text has
no mark exactly if it is the node that was at its path in the beginning (`EditedAlong.unmarked_iff_kept`).
Such a node still stands on the text that it was built from, what was looked at after its end included; a
node that was made anew is marked, and so are all nodes above it.
-/

namespace Reparse

/-- The bytes of a text that a node was built from: from the start of its padding up to its end, and those
after it that were looked at. -/
def Node.basis (n : Node) (text : List UInt8) : List UInt8 :=
  (text.drop n.totalStart).take (n.green.width + n.green.label.lookahead)

namespace Green

variable {w w' : List UInt8} {g : Green} {path : List Nat} {x : Nat} {k : Green}

/-- Of a text that can be counted, what is looked at is not cut off. -/
lemma take_lookaheadEnd (hw : w.length ≤ limit) (k : Green) (x : Nat) :
    (w.drop x).take k.label.lookaheadEnd = (w.drop x).take (k.width + k.label.lookahead) := by
  have hle : ((w.drop x).take (k.width + k.label.lookahead)).length ≤ limit := by
    rw [List.length_take, List.length_drop]
    omega
  rw [lookaheadEnd_eq, Nat.min_comm, ← List.take_take, List.take_of_length_le hle]

/-- The node at a path of an edited tree was at this path before, and stands on the same bytes as it did
then, unless the edit left a mark on it. -/
lemma Guarded.locate_edit {e : Edit} {generation : Nat} {place : List Nat} (h : g.Guarded w)
    (hfits : g.Fits w) (ht : e.Turns w w') (hw : w.length ≤ limit) (hw' : w'.length ≤ limit)
    (hl : (g.edit generation place e).locate? path = some (x, k)) :
    ∃ y m, g.locate? path = some (y, m) ∧ (k.label.hasChanges = false → m = k ∧
      (w'.drop x).take (k.width + k.label.lookahead) =
        (w.drop y).take (k.width + k.label.lookahead)) := by
  obtain ⟨⟨y, m⟩, hm, hc⟩ := exists_carried ht.moves hw hw' hfits nofun h.sheltered hl
  refine ⟨y, m, hm, fun hk => ?_⟩
  cases hc with
  | edited _ htouched =>
    rw [hasChanges_edit htouched] at hk
    cases hk
  | kept _ hkeeps =>
    have htext := hkeeps.text ht
    rw [reach, if_neg (by rw [hk]; exact Bool.false_ne_true), take_lookaheadEnd hw',
      take_lookaheadEnd hw] at htext
    exact ⟨rfl, htext⟩

end Green

namespace C

variable {strict : Prop} {d₀ d : Document} {t₀ t : Tree}

/-- The same of a tree that was edited along with its text any number of times. -/
lemma Matches.locate_editedAlong {path : List Nat} {x : Nat} {k : Green} (h₀ : Matches strict d₀ t₀)
    (hr : EditedAlong d₀ t₀ d t) (hl : t.root.locate? path = some (x, k)) :
    ∃ y m, t₀.root.locate? path = some (y, m) ∧ (k.label.hasChanges = false → m = k ∧
      (d.bytes.drop x).take (k.width + k.label.lookahead) =
        (d₀.bytes.drop y).take (k.width + k.label.lookahead)) := by
  induction hr generalizing x k with
  | refl => exact ⟨x, k, hl, fun _ => ⟨rfl, rfl⟩⟩
  | tail generation hr he hlimit ih =>
    have hknown := (h₀.editedAlong hr).known
    obtain ⟨y, m, hm, hkept⟩ :=
      hknown.guarded.locate_edit hknown.fits he.turns hknown.1 hlimit hl
    obtain ⟨z, m', hm', hkept'⟩ := ih hm
    refine ⟨z, m', hm', fun hk => ?_⟩
    obtain ⟨rfl, htext⟩ := hkept hk
    obtain ⟨rfl, htext'⟩ := hkept' hk
    exact ⟨rfl, htext.trans htext'⟩

end C

/-- Of a tree that a parse gave for a text and that was edited along with it by edits that match, every node
was there in the beginning, by its path of child numbers. It has no mark exactly if it is still the same
storage, and then the text that it was built from, from the start of its padding up to the last byte that
was looked at, is what it was. A node whose storage was made anew has a mark, and so have all nodes above
it. -/
theorem EditedAlong.unmarked_iff_kept {p q : Parser C.Checkpoint} {d₀ d : Document} {t₀ t : Tree}
    {oldTree : Option Tree} {outside : Outside} {generation : Nat} (hused : C.Used False p)
    (hold : ∀ t ∈ oldTree, C.Matches False d₀ t) (hd : d₀.bytes.length ≤ limit)
    (hp : p.parse outside generation d₀ oldTree = (.ok t₀, q)) (hr : EditedAlong d₀ t₀ d t)
    {path : List Nat} {n : Node} (hn : t.rootNode.descend? path = some n) :
    ∃ n₀, t₀.rootNode.descend? path = some n₀ ∧
      (n.hasChanges = false ↔ n.green = n₀.green) ∧
      (n.hasChanges = false → n.sameStorage n₀ = true ∧ n.basis d.bytes = n₀.basis d₀.bytes) ∧
      (n.green ≠ n₀.green → ∀ above m, above <+: path → t.rootNode.descend? above = some m →
        m.hasChanges = true) := by
  obtain ⟨hunmarked, h₀⟩ := hused.unmarked hold hd (fun hf => hf.elim) hp
  have hknown₀ := h₀.known
  have hknown := (h₀.editedAlong hr).known
  have hl := Tree.locate_of_descend? hknown.1 hknown.fits hn
  obtain ⟨x, m, hm, hkept⟩ := h₀.locate_editedAlong hr hl
  obtain ⟨n₀, hn₀, rfl, rfl⟩ := Tree.exists_descend?_of_locate hknown₀.1 hknown₀.fits hm
  refine ⟨n₀, hn₀, ⟨fun h => (hkept h).1.symm, fun h => ?_⟩, fun h => ?_,
    fun hne above m habove hm' => ?_⟩
  · rw [Node.hasChanges, h]
    exact hunmarked _ _ _ hm
  · obtain ⟨heq, htext⟩ := hkept h
    rw [Node.sameStorage, Node.basis, Node.basis, heq]
    exact ⟨beq_self_eq_true _, htext⟩
  · -- below a node without a mark there are no marks, and so `n` would have been kept
    by_contra hmark
    obtain ⟨rest, rfl⟩ := habove
    have hl' := Tree.locate_of_descend? hknown.1 hknown.fits hm'
    have happend := Green.locate?_append hl' rest
    rw [hl] at happend
    obtain ⟨⟨y, k⟩, hrest, hk⟩ := Option.map_eq_some_iff.1 happend.symm
    obtain ⟨-, rfl⟩ := Prod.mk.inj hk
    have hclean := hknown.guarded.clean hl' (Bool.eq_false_iff.2 hmark) hrest
    exact hne (hkept hclean).1.symm

/-- In UTF-16, the word of the first of the statements in `Ċ;x;y;` is replaced: the second one is kept. The
first character has a byte like that of a line break, but the edit has the row that the text has. -/
theorem EditedAlong.unmarked_iff_kept_second :
    ∃ t₀ n n₀, (C.plainParser.parse C.stillWorld 0
        ⟨[10, 1, 59, 0, 120, 0, 59, 0, 121, 0, 59, 0], .utf16⟩ none).1 = .ok t₀ ∧
      (t₀.edit 1 ⟨⟨4, ⟨0, 4⟩⟩, ⟨6, ⟨0, 6⟩⟩, ⟨8, ⟨0, 8⟩⟩⟩).rootNode.descend? [3] = some n ∧
      n.hasChanges = false ∧ t₀.rootNode.descend? [3] = some n₀ ∧ n.green = n₀.green ∧
      n.basis [10, 1, 59, 0, 122, 0, 122, 0, 59, 0, 121, 0, 59, 0] =
        n₀.basis [10, 1, 59, 0, 120, 0, 59, 0, 121, 0, 59, 0] := by
  obtain ⟨-, -, t₀, -, -, -, hp⟩ := @C.parse_of_neverFires C.plainParser C.stillWorld
    ⟨[10, 1, 59, 0, 120, 0, 59, 0, 121, 0, 59, 0], .utf16⟩ 0 rfl C.neverFires_plainParser
  have hedited : EditedAlong ⟨[10, 1, 59, 0, 120, 0, 59, 0, 121, 0, 59, 0], .utf16⟩ t₀
      ⟨[10, 1, 59, 0, 122, 0, 122, 0, 59, 0, 121, 0, 59, 0], .utf16⟩
      (t₀.edit 1 ⟨⟨4, ⟨0, 4⟩⟩, ⟨6, ⟨0, 6⟩⟩, ⟨8, ⟨0, 8⟩⟩⟩) :=
    .tail 1 .refl ⟨⟨by decide, by decide, by decide, [122, 0, 122, 0], rfl, rfl⟩, rfl⟩ (by decide)
  have hmark : ((C.plainParser.parse C.stillWorld 0
      ⟨[10, 1, 59, 0, 120, 0, 59, 0, 121, 0, 59, 0], .utf16⟩ none).1.toOption.bind fun t =>
        (t.edit 1 ⟨⟨4, ⟨0, 4⟩⟩, ⟨6, ⟨0, 6⟩⟩, ⟨8, ⟨0, 8⟩⟩⟩).rootNode.descend? [3]).map
        (·.hasChanges) = some false := by
    decide +kernel
  rw [hp] at hmark
  obtain ⟨n, hn, hchanges⟩ := Option.map_eq_some_iff.1 hmark
  obtain ⟨n₀, hn₀, hiff, htext, -⟩ := EditedAlong.unmarked_iff_kept (.new rfl rfl)
    (fun _ ht => by cases ht) (by decide) hp hedited hn
  exact ⟨t₀, n, n₀, by rw [hp], hn, hchanges, hn₀, hiff.1 hchanges, (htext hchanges).2⟩

end Reparse
