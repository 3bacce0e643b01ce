import Reparse.Proofs.Motion

/-!
# Guards

When the marks of a tree can be relied on. A node without a mark depends on all that was looked at to
build it (`Green.reach`); that lies inside the text and inside what was looked at to build the nodes
above, so that no edit can touch it and leave it, or a node above it, without a mark (`Green.Guarded`).
Edits keep a tree so (`Green.Guarded.edit`).
-/

namespace Reparse

namespace Green

/-- The number of bytes that a node depends on, from where its padding begins: all that was looked at to
build it, and nothing if it is marked. -/
def reach (g : Green) : Nat := if g.label.hasChanges then 0 else g.label.lookaheadEnd

/-- A node reaches no further than was looked at. -/
lemma reach_le (g : Green) : g.reach ≤ g.label.lookaheadEnd := by
  unfold reach
  split
  · exact Nat.zero_le _
  · exact Nat.le_refl _

/-- Whether the marks of a tree over a text can be relied on: what nodes depend on is covered by the nodes
above them and lies inside the text, except for the root, and below a node without a mark there are no
marks. -/
structure Guarded (w : List UInt8) (g : Green) : Prop where
  sheltered : Sheltered reach g
  inside : ∀ {path x h}, path ≠ [] → g.locate? path = some (x, h) → x + h.reach ≤ w.length
  clean : ∀ {path x k}, g.locate? path = some (x, k) → k.label.hasChanges = false →
    ∀ {path' y h}, k.locate? path' = some (y, h) → h.label.hasChanges = false

section

variable {e : Edit} {generation : Nat} {place : List Nat} {w w' : List UInt8}

/-- A node that an edit touches is marked. -/
lemma hasChanges_edit {g : Green} (h : g.label.isUntouchedBy e = false) :
    (g.edit generation place e).label.hasChanges = true := by
  rw [label_edit h]
  rfl

/-- What a touched node depends on still covers what the nodes below it do that are kept. -/
lemma le_lookaheadEnd_edit {k : Green} {whole y y' r : Nat} (htouched : k.label.isUntouchedBy e = false)
    (hk : k.Fits w) (ht : e.Turns w w') (hw : w.length ≤ limit) (hw' : w'.length ≤ limit)
    (hwhole : whole = k.width) (hkeeps : e.Keeps whole y y' r) (hr : y + r ≤ k.label.lookaheadEnd)
    (hin : y + r ≤ w.length) (hy : y' ≤ (k.edit generation place e).width) :
    y' + r ≤ (k.edit generation place e).label.lookaheadEnd := by
  subst hwhole
  have h1 := ht.start_le
  have h2 := ht.oldEnd_le
  have h3 := ht.le_newEnd
  have hl := ht.length
  have hle := hk.width_le
  have hwidth := @width_edit generation place e w w' k hk ht hw hw'
  have hle' := (hk.edit generation place ht hw hw').width_le
  have hahead : (k.edit generation place e).label.lookahead = k.label.lookahead := by
    rw [label_edit htouched]
    rfl
  rw [lookaheadEnd_eq] at hr ⊢
  rw [hahead]
  simp only [Label.isUntouchedBy, Bool.or_eq_false_iff, decide_eq_false_iff_not, lookaheadEnd_eq]
    at htouched
  have hafter : e.widthAfter k.width = if e.start.bytes < k.width ∨
      (e.start.bytes = k.width ∧ e.oldEnd.bytes = e.start.bytes) then
      e.newEnd.bytes + (k.width - e.oldEnd.bytes) else k.width := rfl
  rcases hkeeps with rfl | ⟨rfl, hbefore⟩ | ⟨hold, rfl, hstart⟩
  · omega
  · split at hafter <;> omega
  · rw [if_pos (.inl hstart)] at hafter
    omega

/-- An edit keeps a tree guarded. -/
theorem Guarded.edit {g : Green} (h : g.Guarded w) (hfits : g.Fits w) (ht : e.Turns w w')
    (hw : w.length ≤ limit) (hw' : w'.length ≤ limit) :
    (g.edit generation place e).Guarded w' := by
  have hfits' := hfits.edit generation place ht hw hw'
  have hle' := hfits'.width_le
  have hcarried : ∀ {path q}, (g.edit generation place e).locate? path = some q →
      ∃ p, g.locate? path = some p ∧ Carried reach False e generation g.width w w' p q := fun hq =>
    exists_carried ht.moves hw hw' hfits nofun h.sheltered hq
  refine ⟨fun path x' k' hl' path' y' m hm => ?_, fun {path x' m} hne hl' => ?_,
    fun {path x' k'} hl' hk {path' y m} hm => ?_⟩
  · cases path' with
    | nil =>
      obtain ⟨rfl, rfl⟩ := Prod.mk.inj (Option.some.inj hm)
      rw [Nat.zero_add]
      exact reach_le _
    | cons i rest =>
      obtain ⟨⟨x, k⟩, hl, hc⟩ := hcarried hl'
      cases hc with
      | kept _ _ => exact h.sheltered path x k' hl (i :: rest) y' m hm
      | @edited _ _ k e' place v v' hpart htouched =>
        have hkfits := hpart.fits (hfits.locate hl).1
        have hv : v.length ≤ limit := by
          rw [hpart.length]
          omega
        obtain ⟨⟨y, k'⟩, hy, hc'⟩ := exists_carried hpart.moves.turns.moves hv
          hpart.length_le' hkfits nofun (h.sheltered.locate hl) hm
        obtain ⟨-, hylt⟩ := (hkfits.edit generation place hpart.moves.turns hv hpart.length_le').locate hm
        have hend := lookaheadEnd_eq (k.edit generation place e')
        have hkle := (hkfits.edit generation place hpart.moves.turns hv hpart.length_le').width_le
        have hlimit := hpart.length_le'
        cases hc' with
        | edited _ htouched' =>
          rw [reach, if_pos (hasChanges_edit htouched'), Nat.add_zero]
          omega
        | kept _ hkeeps =>
          have hlocate := locate?_append hl (i :: rest)
          rw [hy] at hlocate
          have hin := h.inside (by simp) hlocate
          have hkle := hkfits.width_le
          refine le_lookaheadEnd_edit htouched hkfits hpart.moves.turns hv hlimit rfl hkeeps
            (h.sheltered path x k hl (i :: rest) y m hy) ?_ (by omega)
          rw [hpart.length]
          dsimp only at hin
          omega
  · obtain ⟨⟨x, k⟩, hl, hc⟩ := hcarried hl'
    obtain ⟨-, hx⟩ := hfits'.locate hl'
    cases hc with
    | edited _ htouched =>
      rw [reach, if_pos (hasChanges_edit htouched)]
      omega
    | kept _ hkeeps =>
      have hin := h.inside hne hl
      have h1 := ht.start_le
      have h2 := ht.oldEnd_le
      have h3 := ht.le_newEnd
      have hlength := ht.length
      rcases hkeeps with hzero | ⟨rfl, hbefore⟩ | ⟨hold, rfl, -⟩ <;> omega
  · obtain ⟨⟨x, k⟩, hl, hc⟩ := hcarried hl'
    cases hc with
    | kept _ _ => exact h.clean hl hk hm
    | edited _ htouched =>
      rw [hasChanges_edit htouched] at hk
      cases hk

end

/-! ## Trees without marks -/

/-- Whether no node of a tree has a mark. -/
def Unmarked (g : Green) : Prop :=
  ∀ path x h, g.locate? path = some (x, h) → h.label.hasChanges = false

/-- Whether a tree that begins at a byte has no marks, and depends on nothing from `bound` on. -/
structure Clear (bound x : Nat) (g : Green) : Prop where
  sheltered : Sheltered reach g
  unmarked : ∀ {path y h}, g.locate? path = some (y, h) → h.label.hasChanges = false
  within : x + g.label.lookaheadEnd ≤ bound

/-- A node without a mark below the root of a guarded tree. -/
lemma Guarded.clear {w : List UInt8} {g k : Green} {path : List Nat} {x : Nat} (h : g.Guarded w)
    (hne : path ≠ []) (hl : g.locate? path = some (x, k)) (hk : k.label.hasChanges = false) :
    k.Clear w.length x where
  sheltered := h.sheltered.locate hl
  unmarked := h.clean hl hk
  within := by
    have hin := h.inside hne hl
    rwa [reach, hk] at hin

/-- A node over trees without marks, which covers what they depend on. -/
lemma Clear.node {bound x : Nat} {l : Label} {cs : List (Child Green)} (hl : l.hasChanges = false)
    (hcs : ∀ p ∈ placed 0 cs, p.2.node.Clear bound (x + p.1))
    (hend : ∀ p ∈ placed 0 cs, p.1 + p.2.node.label.lookaheadEnd ≤ l.lookaheadEnd)
    (hbound : x + l.lookaheadEnd ≤ bound) : (Green.node l cs).Clear bound x where
  sheltered path y k hk path' z h hh := by
    cases path with
    | nil =>
      obtain ⟨rfl, rfl⟩ := Prod.mk.inj (Option.some.inj hk)
      cases path' with
      | nil =>
        obtain ⟨rfl, rfl⟩ := Prod.mk.inj (Option.some.inj hh)
        rw [Nat.zero_add]
        exact reach_le _
      | cons i rest =>
        obtain ⟨y, c, z, hc, hz, rfl⟩ := locate?_cons.1 hh
        have hmem := List.mem_of_getElem? hc
        have h1 := (hcs _ hmem).sheltered [] 0 _ rfl rest z h hz
        have h2 := hend _ hmem
        dsimp only at h1 h2
        show y + z + h.reach ≤ l.lookaheadEnd
        omega
    | cons i rest =>
      obtain ⟨y, c, z, hc, hz, rfl⟩ := locate?_cons.1 hk
      exact (hcs _ (List.mem_of_getElem? hc)).sheltered rest z k hz path' _ h hh
  unmarked {path y h} hh := by
    cases path with
    | nil =>
      obtain ⟨rfl, rfl⟩ := Prod.mk.inj (Option.some.inj hh)
      exact hl
    | cons i rest =>
      obtain ⟨y, c, z, hc, hz, rfl⟩ := locate?_cons.1 hh
      exact (hcs _ (List.mem_of_getElem? hc)).unmarked hz
  within := hbound

/-- A leaf without a mark is clear. -/
lemma Clear.leaf {bound x : Nat} {l : Label} (hl : l.hasChanges = false)
    (hbound : x + l.lookaheadEnd ≤ bound) : (Green.node l []).Clear bound x :=
  .node hl nofun nofun hbound

/-- Another label without a mark at the root of a tree without marks. -/
lemma Clear.relabelled {bound x : Nat} {l l' : Label} {cs : List (Child Green)}
    (h : (Green.node l cs).Clear bound x) (hl : l'.hasChanges = l.hasChanges) :
    (Green.node l' cs).Unmarked := by
  intro path y m hm
  cases path with
  | nil =>
    obtain ⟨rfl, rfl⟩ := Prod.mk.inj (Option.some.inj hm)
    exact hl.trans (h.unmarked (rfl : (Green.node l cs).locate? [] = some (0, _)))
  | cons i rest => exact @Clear.unmarked _ _ _ h (i :: rest) y m hm

/-- A tree without marks is guarded, also if its root is stretched. -/
lemma Clear.stretched {w : List UInt8} {l l' : Label} {cs : List (Child Green)}
    (h : (Green.node l cs).Clear w.length 0) (hl : l'.hasChanges = l.hasChanges)
    (hend : l.lookaheadEnd ≤ l'.lookaheadEnd) : (Green.node l' cs).Guarded w where
  sheltered path y k hk path' z m hm := by
    cases path with
    | nil =>
      obtain ⟨rfl, rfl⟩ := Prod.mk.inj (Option.some.inj hk)
      cases path' with
      | nil =>
        obtain ⟨rfl, rfl⟩ := Prod.mk.inj (Option.some.inj hm)
        rw [Nat.zero_add]
        exact reach_le _
      | cons i rest => exact Nat.le_trans (h.sheltered [] 0 _ rfl (i :: rest) z m hm) hend
    | cons i rest => exact h.sheltered (i :: rest) y k hk path' z m hm
  inside {path y m} hne hm := by
    cases path with
    | nil => exact absurd rfl hne
    | cons i rest =>
      have h1 := h.sheltered [] 0 _ rfl (i :: rest) y m hm
      have h2 := h.within
      have h3 : y + m.reach ≤ l.lookaheadEnd := h1
      have h4 : 0 + l.lookaheadEnd ≤ w.length := h2
      omega
  clean {path y k} hk _ path' z m hm := by
    have hlocate := locate?_append hk path'
    rw [hm] at hlocate
    exact h.relabelled hl _ _ _ hlocate

/-- Going over trees that begin at `x`, `step` goes on to where the next one begins and keeps the end of
what was looked at: that reaches as far as it did before, or as it does for one of the trees. -/
lemma foldl_reached {step : Nat × Nat → Child Green → Nat × Nat}
    (hstep : ∀ x m c, step (x, m) c = (addCounts x c.node.total.bytes,
      max m (addCounts (addCounts x c.node.total.bytes) c.node.label.lookahead)))
    {cs : List (Child Green)} {x m : Nat} (hx : x + widthOf cs ≤ limit) :
    m ≤ (cs.foldl step (x, m)).2 ∧
      (∀ p ∈ placed x cs, min (p.1 + p.2.node.width + p.2.node.label.lookahead) limit ≤
        (cs.foldl step (x, m)).2) ∧
      ∀ bound, m ≤ bound → (∀ p ∈ placed x cs,
        min (p.1 + p.2.node.width + p.2.node.label.lookahead) limit ≤ bound) →
        (cs.foldl step (x, m)).2 ≤ bound := by
  induction cs generalizing x m with
  | nil => exact ⟨Nat.le_refl _, nofun, fun _ h _ => h⟩
  | cons c cs ih =>
    rw [widthOf] at hx
    have hw : c.node.width = c.node.label.padding.bytes + c.node.label.size.bytes := rfl
    have hoffset : addCounts x c.node.total.bytes = x + c.node.width := by
      simp only [total, Length.bytes_add, addCounts]
      omega
    have hahead : addCounts (x + c.node.width) c.node.label.lookahead =
        min (x + c.node.width + c.node.label.lookahead) limit := rfl
    obtain ⟨hbefore, hle, hleast⟩ := @ih (x + c.node.width)
      (max m (addCounts (x + c.node.width) c.node.label.lookahead)) (by omega)
    rw [List.foldl_cons, hstep, hoffset]
    refine ⟨by omega, fun p hp => ?_, fun bound hm hb => hleast bound ?_ fun p hp =>
      hb p (List.mem_cons_of_mem _ hp)⟩
    · rcases List.mem_cons.1 hp with rfl | hp
      · dsimp only
        omega
      · exact hle p hp
    · have hc := hb (x, c) (List.mem_cons_self ..)
      dsimp only at hc
      omega

/-- What was looked at to build some trees is what was looked at to build one of them. -/
lemma lookaheadEnd_spec {cs : List (Child Green)} (hfit : widthOf cs ≤ limit) :
    (∀ p ∈ placed 0 cs, min (p.1 + p.2.node.width + p.2.node.label.lookahead) limit ≤
        Builder.lookaheadEnd cs) ∧
      ∀ bound, (∀ p ∈ placed 0 cs, min (p.1 + p.2.node.width + p.2.node.label.lookahead) limit ≤ bound) →
        Builder.lookaheadEnd cs ≤ bound := by
  have hx : 0 + widthOf cs ≤ limit := by rwa [Nat.zero_add]
  unfold Builder.lookaheadEnd
  refine ⟨(foldl_reached ?_ hx).2.1, fun bound => (foldl_reached ?_ hx).2.2 bound (Nat.zero_le _)⟩ <;>
    exact fun _ _ _ => rfl

/-- The node that a builder makes over trees without marks depends on what they do. -/
lemma Clear.nodeOver {bound x : Nat} {b : Builder} {start : Length} {cs : List (Child Green)}
    (stamp : Stamp) (symbol : Symbol) (hcs : ∀ p ∈ placed x cs, p.2.node.Clear bound p.1)
    (hfit : x + widthOf cs ≤ bound) (hw : x + (b.nodeOver stamp symbol start cs).width ≤ bound)
    (hbound : bound ≤ limit) : (b.nodeOver stamp symbol start cs).Clear bound x := by
  have hplaced := placed_add x 0 cs
  rw [Nat.add_zero] at hplaced
  have hcs : ∀ p ∈ placed 0 cs, p.2.node.Clear bound (x + p.1) := fun p hp =>
    hcs (x + p.1, p.2) (by rw [hplaced]; exact List.mem_map_of_mem hp)
  obtain ⟨hle, hleast⟩ := @lookaheadEnd_spec cs (by omega)
  have hend := lookaheadEnd_eq (b.nodeOver stamp symbol start cs)
  have hahead : (b.nodeOver stamp symbol start cs).label.lookahead =
      Builder.lookaheadEnd cs - (b.nodeOver stamp symbol start cs).width := by
    have hcount : (b.nodeOver stamp symbol start cs).label.lookahead = Builder.lookaheadEnd cs -
        addCounts (b.nodeOver stamp symbol start cs).label.padding.bytes
          (b.nodeOver stamp symbol start cs).label.size.bytes := rfl
    rw [width] at hw
    rw [hcount, addCounts_of_le (by omega), width]
  have hcap : Builder.lookaheadEnd cs ≤ limit := hleast limit fun _ _ => Nat.min_le_right _ _
  refine Clear.node rfl hcs (fun p hp => ?_) ?_
  · have hc := (hcs p hp).within
    have hp := hle p hp
    rw [lookaheadEnd_eq] at hc ⊢
    show _ ≤ (b.nodeOver stamp symbol start cs).label.lookaheadEnd
    omega
  · have hcs' := hleast (bound - x) fun p hp => by
      have hc := (hcs p hp).within
      rw [lookaheadEnd_eq] at hc
      omega
    show x + (b.nodeOver stamp symbol start cs).label.lookaheadEnd ≤ bound
    omega

end Green

/-! ## Nodes that may be taken over -/

namespace Node

/-- What a path leads to from a child a longer one leads to from its node. -/
lemma exists_descend?_of_mem {n c m : Node} (hc : c ∈ n.children)
    (h : ∃ path, c.descend? path = some m) : ∃ path, path ≠ [] ∧ n.descend? path = some m := by
  obtain ⟨path, hpath⟩ := h
  obtain ⟨i, hi⟩ := List.getElem?_of_mem hc
  refine ⟨i :: path, List.cons_ne_nil _ _, ?_⟩
  rw [descend?, child?, hi]
  exact hpath

/-- A path leads to every node of a chain. -/
lemma exists_descend?_of_mem_chain {byte levels : Nat} {n m : Node} (h : m ∈ Reuse.chain byte levels n) :
    ∃ path, n.descend? path = some m := by
  induction levels generalizing n with
  | zero => cases h
  | succ levels ih =>
    unfold Reuse.chain at h
    split at h
    · rcases List.mem_append.1 h with h | h
      · split at h
        · exact ⟨[], by rw [List.mem_singleton.1 h]; rfl⟩
        · cases h
      · cases hc : n.child? 0 with
        | none => simp [hc] at h
        | some c =>
          simp only [hc, Option.map_some, Option.getD_some] at h
          obtain ⟨path, -, hpath⟩ := exists_descend?_of_mem (List.mem_of_getElem? hc) (ih h)
          exact ⟨path, hpath⟩
    · cases h

/-- What a search finds lies below the node where it starts. -/
lemma exists_descend?_of_mem_candidatesBelow {byte levels : Nat} {n m : Node}
    (h : m ∈ Reuse.candidatesBelow byte levels n) : ∃ path, path ≠ [] ∧ n.descend? path = some m := by
  induction levels generalizing n with
  | zero => cases h
  | succ levels ih =>
    unfold Reuse.candidatesBelow at h
    split at h
    · cases h
    · rename_i c hc
      refine exists_descend?_of_mem (List.mem_of_find?_eq_some hc) ?_
      split at h
      · exact exists_descend?_of_mem_chain h
      · obtain ⟨path, -, hpath⟩ := ih h
        exact ⟨path, hpath⟩
      · cases h

end Node

/-- A node of a guarded tree that may be taken over has no marks below it. -/
theorem Green.Guarded.candidate {w : List UInt8} {t : Tree} {byte : Nat} {n : Node}
    (h : t.root.Guarded w) (hfits : t.root.Fits w) (hw : w.length ≤ limit)
    (hn : n ∈ t.candidatesAt byte) : n.green.Clear w.length byte := by
  have hroot : t.rootNode.Stands (fun _ _ => True) w := ⟨0, Nat.zero_le _, (Nat.zero_add _).symm, hfits⟩
  obtain ⟨-, htotal, hintact⟩ :=
    Reuse.of_mem_candidatesBelow (fun _ h => h.children hw) (hroot.children hw) hn
  obtain ⟨-, -, hstart, -⟩ := holds_of_mem_candidatesAt hfits hw hn
  obtain ⟨path, hne, hpath⟩ := Node.exists_descend?_of_mem_candidatesBelow hn
  have hlocate := @Node.descend?_eq _ w t.rootNode 0 hw (Nat.zero_le _) hfits (Nat.zero_add _).symm path
  rw [hpath] at hlocate
  obtain ⟨⟨x, k⟩, hl, heq⟩ := Option.map_eq_some_iff.1 hlocate.symm
  obtain ⟨rfl, hx⟩ := Prod.mk.inj heq
  obtain rfl : x = byte := by
    dsimp only at hx
    omega
  simp only [Reuse.isIntact, Bool.and_eq_true, Bool.not_eq_true'] at hintact
  exact h.clear hne hl hintact.1

end Reparse
