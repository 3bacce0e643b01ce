import Reparse.Proofs.Extents
import Reparse.Proofs.Locations

/-!
# Motion

What an edit does to every node of a tree. Of several siblings, those before the edit stay, those after
it move along, and the other ones are edited by the part of it that falls to them
(`Green.passes_edit`). A part of an edit is an edit of a part of the text (`Edit.Part`), and so, by the
path to it, every node is kept or edited in the same way (`Green.carried_locate`).
-/

namespace Reparse

/-! ## Edits of texts -/

/-- Whether an edit turns one text into another, and if `exact`, has the positions of its bytes. -/
structure Edit.Moves (exact : Prop) (e : Edit) (w w' : List UInt8) : Prop where
  turns : e.Turns w w'
  start : exact → e.start = .upTo w e.start.bytes
  oldEnd : exact → e.oldEnd = .upTo w e.oldEnd.bytes
  newEnd : exact → e.newEnd = .upTo w' e.newEnd.bytes

namespace Edit

variable {exact : Prop} {e : Edit} {w w' : List UInt8} {left : Length}

/-- An edit that turns one text into another moves its bytes. -/
lemma Turns.moves (h : e.Turns w w') : e.Moves False w w' := ⟨h, nofun, nofun, nofun⟩

/-- A position beyond another one is that in the text from there on. -/
lemma upTo_relative {p : Length} {v : List UInt8} {x : Nat} (hp : p = .upTo v p.bytes)
    (hl : left = .upTo v x) (hx : left.bytes = x) :
    p.beyond left = .upTo (v.drop x) (p.beyond left).bytes := by
  rw [Length.bytes_beyond, hx]
  conv_lhs => rw [hp, hl, Length.upTo_beyond]

namespace Moves

/-- The same from a place on that is not after the start. -/
lemma relativeTo (h : e.Moves exact w w') (hl : left.bytes ≤ e.start.bytes)
    (hleft : exact → left = .upTo w left.bytes) :
    (e.relativeTo left).Moves exact (w.drop left.bytes) (w'.drop left.bytes) where
  turns := h.turns.relativeTo hl
  start he := upTo_relative (h.start he) (hleft he) rfl
  oldEnd he := upTo_relative (h.oldEnd he) (hleft he) rfl
  newEnd he := upTo_relative (h.newEnd he)
    ((hleft he).trans (Length.upTo_congr (h.turns.take hl).symm (Nat.le_refl _))) rfl

/-- The same without what is taken away and what is put in. -/
lemma collapsed (h : e.Moves exact w w') (hl : left.bytes ≤ e.start.bytes)
    (hleft : exact → left = .upTo w left.bytes) :
    (e.relativeTo left).collapsed.Moves exact (w.drop left.bytes) (w.drop left.bytes) where
  turns := .void rfl rfl (by
    have h1 := h.turns.start_le
    have h2 := h.turns.oldEnd_le
    simp only [Edit.collapsed, Edit.relativeTo, Length.bytes_beyond, List.length_drop]
    omega)
  start := (h.relativeTo hl hleft).start
  oldEnd := (h.relativeTo hl hleft).start
  newEnd := (h.relativeTo hl hleft).start

end Moves

/-- What is left of an edit, of which the new text was put in before: an edit that takes away what comes
first. -/
lemma Moves.absorbed (h : e.Moves exact w w') (hl : e.start.bytes ≤ left.bytes)
    (ho : left.bytes ≤ e.oldEnd.bytes) (hleft : exact → left = .upTo w left.bytes) :
    (e.absorbed.relativeTo left).Moves exact (w.drop left.bytes) (w'.drop e.newEnd.bytes) := by
  have hstart : (e.absorbed.relativeTo left).start = .zero := if_neg (Nat.not_lt.2 hl)
  have hnewEnd : (e.absorbed.relativeTo left).newEnd = .zero := if_neg (Nat.not_lt.2 hl)
  have hold : (e.absorbed.relativeTo left).oldEnd.bytes = e.oldEnd.bytes - left.bytes :=
    Length.bytes_beyond _ _
  have h2 := h.turns.oldEnd_le
  have hdrop := h.turns.drop (Nat.le_refl e.oldEnd.bytes)
  rw [Nat.sub_self, Nat.add_zero] at hdrop
  refine ⟨.dropped (by rw [hstart]; rfl) (by rw [hnewEnd]; rfl) ?_ ?_, fun _ => ?_,
    fun he => upTo_relative (h.oldEnd he) (hleft he) rfl, fun _ => ?_⟩
  · rw [hold, List.length_drop]
    omega
  · rw [hold, List.drop_drop, hdrop]
    congr 1
    omega
  · rw [hstart]
    rfl
  · rw [hnewEnd]
    rfl

/-- Whether `r` bytes from `x` on, of the `width` bytes of a tree, are those from `x'` on after an
edit: if there are any, they lie before it, or after it, and then it starts inside the tree. -/
def Keeps (e : Edit) (width x x' r : Nat) : Prop :=
  r = 0 ∨ (x' = x ∧ x + r ≤ e.start.bytes) ∨
    (e.oldEnd.bytes ≤ x ∧ x' = e.newEnd.bytes + (x - e.oldEnd.bytes) ∧ e.start.bytes < width)

/-- Bytes that are kept are the same before and after the edit. -/
lemma Keeps.text {width x x' r : Nat} (h : e.Keeps width x x' r) (ht : e.Turns w w') :
    (w'.drop x').take r = (w.drop x).take r := by
  rcases h with rfl | ⟨rfl, hle⟩ | ⟨hle, rfl, -⟩
  · rw [List.take_zero, List.take_zero]
  · have := congrArg (List.drop x') (ht.take hle)
    rwa [List.drop_take, List.drop_take, Nat.add_sub_cancel_left] at this
  · rw [ht.drop hle]

/-- The part of an edit that falls to a tree of `width` bytes, which stands at `x` and is moved to
`x'`, below a tree of `whole` bytes: an edit of its own text, which agrees on what is moved and what is
kept. -/
structure Part (exact : Prop) (e : Edit) (whole : Nat) (w w' : List UInt8) (width x x' : Nat)
    (e' : Edit) (v v' : List UInt8) : Prop where
  moves : e'.Moves exact v v'
  length : v.length = w.length - x
  length_le' : v'.length ≤ limit
  text : v.take width = (w.drop x).take width
  text' : v'.take (e'.widthAfter width) = (w'.drop x').take (e'.widthAfter width)
  shift : ∀ a ≤ width, x' + e'.shiftByte a = e.shiftByte (x + a)
  keeps : ∀ y y' r, e'.Keeps width y y' r → e.Keeps whole (x + y) (x' + y') r

namespace Part

/-- The whole of an edit. -/
lemma refl (h : e.Moves exact w w') (hw' : w'.length ≤ limit) (width : Nat) :
    e.Part exact width w w' width 0 0 e w w' where
  moves := h
  length := rfl
  length_le' := hw'
  text := rfl
  text' := rfl
  shift a _ := by rw [Nat.zero_add, Nat.zero_add]
  keeps y y' r h := by rwa [Nat.zero_add, Nat.zero_add]

/-- A part of a part is one of the whole. -/
lemma trans {whole width width' x x' y y' : Nat} {e' e'' : Edit} {v v' u u' : List UInt8}
    (h : e.Part exact whole w w' width x x' e' v v')
    (h' : e'.Part exact width v v' width' y y' e'' u u') (hy : y + width' ≤ width)
    (hy' : y' + e''.widthAfter width' ≤ e'.widthAfter width) :
    e.Part exact whole w w' width' (x + y) (x' + y') e'' u u' where
  moves := h'.moves
  length := by rw [h'.length, h.length, Nat.sub_sub]
  length_le' := h'.length_le'
  text := by
    have := congrArg (fun l => (List.drop y l).take width') h.text
    simp only [List.drop_take, List.take_take, List.drop_drop, Nat.min_eq_left
      (show width' ≤ width - y by omega)] at this
    rw [h'.text, this]
  text' := by
    have := congrArg (fun l => (List.drop y' l).take (e''.widthAfter width')) h.text'
    simp only [List.drop_take, List.take_take, List.drop_drop, Nat.min_eq_left
      (show e''.widthAfter width' ≤ e'.widthAfter width - y' by omega)] at this
    rw [h'.text', this]
  shift a ha := by rw [Nat.add_assoc, h'.shift a ha, h.shift (y + a) (by omega), Nat.add_assoc]
  keeps z z' r hk := by
    rw [Nat.add_assoc, Nat.add_assoc]
    exact h.keeps _ _ _ (h'.keeps _ _ _ hk)

/-- A tree fits into the text of the part that falls to it. -/
lemma fits {g : Green} {whole x x' : Nat} {e' : Edit} {v v' : List UInt8}
    (hp : e.Part exact whole w w' g.width x x' e' v v') (h : g.Fits (w.drop x)) : g.Fits v := by
  have hle := h.width_le
  rw [List.length_drop] at hle
  exact h.of_take hp.text (by rw [hp.length]; exact hle)

section

variable {whole width : Nat} (h : e.Moves exact w w') (hw : w.length ≤ limit)
  (hleft : exact → left = .upTo w left.bytes)

include h hw hleft

/-- The part of a tree that the edit starts in. -/
lemma relativeTo (hw' : w'.length ≤ limit) (hl : left.bytes ≤ e.start.bytes)
    (hfit : left.bytes + width ≤ whole) :
    e.Part exact whole w w' width left.bytes left.bytes (e.relativeTo left) (w.drop left.bytes)
      (w'.drop left.bytes) where
  moves := h.relativeTo hl hleft
  length := List.length_drop
  length_le' := by
    rw [List.length_drop]
    omega
  text := rfl
  text' := rfl
  shift a _ := by
    have h1 := h.turns.start_le
    have h3 := h.turns.le_newEnd
    simp only [shiftByte, Edit.relativeTo, Length.bytes_beyond]
    split_ifs <;> omega
  keeps y y' r hk := by
    have h1 := h.turns.start_le
    have h3 := h.turns.le_newEnd
    simp only [Keeps, Edit.relativeTo, Length.bytes_beyond] at hk ⊢
    omega

/-- The part of a tree that lies before the edit and does not take in its new text. -/
lemma collapsed (hl : left.bytes + width ≤ e.start.bytes)
    (hne : left.bytes + width = e.start.bytes → e.oldEnd.bytes ≠ e.start.bytes) :
    e.Part exact whole w w' width left.bytes left.bytes (e.relativeTo left).collapsed
      (w.drop left.bytes) (w.drop left.bytes) where
  moves := h.collapsed (by omega) hleft
  length := List.length_drop
  length_le' := by
    rw [List.length_drop]
    omega
  text := rfl
  text' := by
    rw [(Edit.after_of_void rfl rfl width).1]
    have := congrArg (List.drop left.bytes) (h.turns.take hl)
    rwa [List.drop_take, List.drop_take, Nat.add_sub_cancel_left, eq_comm] at this
  shift a ha := by
    have h1 := h.turns.start_le
    simp only [shiftByte, Edit.relativeTo, Edit.collapsed, Length.bytes_beyond]
    split_ifs <;> omega
  keeps y y' r hk := by
    simp only [Keeps, Edit.relativeTo, Edit.collapsed, Length.bytes_beyond] at hk ⊢
    omega

/-- The part of a tree that comes after the one that has taken in the new text. -/
lemma absorbed (hw' : w'.length ≤ limit) (hl : e.start.bytes ≤ left.bytes)
    (ho : left.bytes ≤ e.oldEnd.bytes)
    (hs : e.start.bytes < left.bytes ∨ e.oldEnd.bytes = e.start.bytes)
    (hr : e.start.bytes < left.bytes + width) (hfit : left.bytes + width ≤ whole) :
    e.Part exact whole w w' width left.bytes e.newEnd.bytes (e.absorbed.relativeTo left)
      (w.drop left.bytes) (w'.drop e.newEnd.bytes) where
  moves := h.absorbed hl ho hleft
  length := List.length_drop
  length_le' := by
    rw [List.length_drop]
    omega
  text := rfl
  text' := rfl
  shift a _ := by
    simp only [shiftByte, Edit.relativeTo, Edit.absorbed, Length.bytes_beyond]
    split_ifs <;> omega
  keeps y y' r hk := by
    simp only [Keeps, Edit.relativeTo, Edit.absorbed, Length.bytes_beyond] at hk ⊢
    omega

/-- The part of a tree without extent right after the one that has taken in the new text. -/
lemma spent (hl : left.bytes = e.start.bytes) (ho : e.oldEnd.bytes = e.start.bytes) :
    e.Part exact whole w w' 0 left.bytes e.newEnd.bytes (e.absorbed.relativeTo left).collapsed
      (w.drop left.bytes) (w.drop left.bytes) where
  moves := h.collapsed (Nat.le_of_eq hl) hleft
  length := List.length_drop
  length_le' := by
    rw [List.length_drop]
    omega
  text := rfl
  text' := by
    rw [(Edit.after_of_void rfl rfl 0).1, List.take_zero, List.take_zero]
  shift a ha := by
    simp only [shiftByte, Edit.relativeTo, Edit.collapsed, Edit.absorbed, Length.bytes_beyond]
    split_ifs <;> omega
  keeps y y' r hk := by
    simp only [Keeps, Edit.relativeTo, Edit.collapsed, Edit.absorbed, Length.bytes_beyond] at hk ⊢
    omega

end

end Part

end Edit

/-! ## Trees over texts -/

/-- Whether a label has the extents of a text, from where its padding begins. -/
structure Label.Measured (w : List UInt8) (l : Label) : Prop where
  padding : l.padding = .upTo w l.padding.bytes
  size : l.size = .upTo (w.drop l.padding.bytes) l.size.bytes

/-- The extents of a label are those of the text that it takes. -/
lemma Label.Measured.of_take {l : Label} {w v : List UInt8} (h : l.Measured w)
    (ht : v.take (l.padding.bytes + l.size.bytes) = w.take (l.padding.bytes + l.size.bytes)) :
    l.Measured v := by
  refine ⟨h.padding.trans (Length.upTo_congr ht (Nat.le_add_right _ _)).symm, h.size.trans ?_⟩
  have := congrArg (List.drop l.padding.bytes) ht
  rw [List.drop_take, List.drop_take, Nat.add_sub_cancel_left] at this
  exact (Length.upTo_congr this (Nat.le_refl _)).symm

namespace Green

mutual

/-- Whether a tree has the extents of a text, from where its padding begins. -/
def Measured (w : List UInt8) : Green → Prop
  | node l cs => l.Measured w ∧ MeasuredAll w cs

/-- The same of trees that follow one another. -/
def MeasuredAll (w : List UInt8) : List (Child Green) → Prop
  | [] => True
  | c :: rest => c.node.Measured w ∧ MeasuredAll (w.drop c.node.width) rest

end

/-- A measured tree is as long as its text. -/
lemma Measured.total {g : Green} {w : List UInt8} (h : g.Measured w) (hw : w.length ≤ limit) :
    g.total = .upTo w g.width := by
  obtain ⟨l, cs⟩ := g
  obtain ⟨⟨hp, hs⟩, -⟩ := h
  show l.padding + l.size = .upTo w (l.padding.bytes + l.size.bytes)
  conv_lhs => rw [hp, hs, Length.upTo_add hw]

/-- Where a tree has the extents of its text, so has what begins after it. -/
lemma Measured.add_total {g : Green} {left : Length} {w : List UInt8}
    (h : g.Measured (w.drop left.bytes)) (hw : w.length ≤ limit)
    (hfit : left.bytes + g.width ≤ w.length) (hl : left = .upTo w left.bytes) :
    left + g.total = .upTo w (left + g.total).bytes := by
  rw [bytes_add_total hfit hw]
  conv_lhs => rw [hl, h.total (by rw [List.length_drop]; omega), Length.upTo_add hw]

/-- What an edit of a tree of `whole` bytes does to one of the children: those before it stay, those
after it move along, and the other ones are edited by the part that falls to them. -/
inductive Passes (exact : Prop) (e : Edit) (generation whole : Nat) (w w' : List UInt8) :
    Nat × Child Green → Nat × Child Green → Prop where
  | before {x c} :
    x + c.node.width + c.node.label.lookahead < e.start.bytes →
    Passes exact e generation whole w w' (x, c) (x, c)
  | after {x c} :
    e.oldEnd.bytes ≤ x → e.start.bytes < whole →
    Passes exact e generation whole w w' (x, c) (e.newEnd.bytes + (x - e.oldEnd.bytes), c)
  | meets {x x' f g e' place v v'} :
    e.Part exact whole w w' g.width x x' e' v v' →
    Passes exact e generation whole w w' (x, ⟨f, g⟩) (x', ⟨f, g.edit generation place e'⟩)

section

variable {exact : Prop} {generation : Nat} {place : List Nat} {e : Edit} {index whole : Nat}
  {left : Length} {w w' : List UInt8} {cs : List (Child Green)}

/-- Trees after an edit move along with it. -/
lemma passes_after {x : Nat} (hx : e.oldEnd.bytes ≤ x) (hs : e.start.bytes < whole) :
    List.Forall₂ (Passes exact e generation whole w w') (placed x cs)
      (placed (e.newEnd.bytes + (x - e.oldEnd.bytes)) cs) := by
  induction cs generalizing x with
  | nil => exact .nil
  | cons c cs ih =>
    refine .cons (.after hx hs) ?_
    have := @ih (x + c.node.width) (by omega)
    rwa [show e.newEnd.bytes + (x - e.oldEnd.bytes) + c.node.width =
      e.newEnd.bytes + (x + c.node.width - e.oldEnd.bytes) by omega]

/-- An edited tree that fits is as wide as the edit makes it. -/
lemma width_edit {g : Green} (h : g.Fits w) (ht : e.Turns w w') (hw : w.length ≤ limit)
    (hw' : w'.length ≤ limit) : (g.edit generation place e).width = e.widthAfter g.width :=
  (follows _ g ht hw hw' h).2.1

/-- A tree that is given part of an edit is as wide as that makes it. -/
lemma width_part {g : Green} {x x' : Nat} {e' : Edit} {v v' : List UInt8}
    (h : g.Fits (w.drop x)) (hp : e.Part exact whole w w' g.width x x' e' v v')
    (hw : w.length ≤ limit) : (g.edit generation place e').width = e'.widthAfter g.width :=
  width_edit (hp.fits h) hp.moves.turns (by rw [hp.length]; omega) hp.length_le'

/-- A tree that is given part of an edit, with the trees after it. -/
lemma passes_cons {c : Child Green} {rest rest' : List (Child Green)} {x x' right : Nat} {e' : Edit}
    {v v' : List UInt8} (hw : w.length ≤ limit) (hc : c.node.Fits (w.drop x))
    (hp : e.Part exact whole w w' c.node.width x x' e' v v')
    (hr : x' + e'.widthAfter c.node.width = right)
    (h : List.Forall₂ (Passes exact e generation whole w w') (placed (x + c.node.width) rest)
      (placed right rest')) :
    List.Forall₂ (Passes exact e generation whole w w') (placed x (c :: rest))
      (placed x' (⟨c.field, c.node.edit generation place e'⟩ :: rest')) := by
  refine .cons (.meets hp) ?_
  rwa [width_part hc hp hw, hr]

variable (ht : e.Moves exact w w') (hw : w.length ≤ limit) (hw' : w'.length ≤ limit)
  (hleft : exact → left = .upTo w left.bytes) (hfit : left.bytes + widthOf cs ≤ whole)
  (hwhole : whole ≤ w.length)

include ht hw hw' hleft hfit hwhole

/-- After the tree that takes in the new text, the other ones lose what was taken away of them, or are
passed by. -/
lemma passes_absorbed (hindex : 0 < index) (hs : e.start.bytes ≤ left.bytes)
    (hs' : e.start.bytes < left.bytes ∨ e.oldEnd.bytes = e.start.bytes)
    (h : HoldsAll (fun _ _ => True) (w.drop left.bytes) cs)
    (hm : exact → MeasuredAll (w.drop left.bytes) cs) :
    List.Forall₂ (Passes exact e generation whole w w') (placed left.bytes cs)
      (placed (e.newEnd.bytes + (left.bytes - e.oldEnd.bytes))
        (editChildren generation place e.absorbed false index left cs)) := by
  have h1 := ht.turns.start_le
  have h2 := ht.turns.oldEnd_le
  induction cs generalizing index left with
  | nil => exact .nil
  | cons c rest ih =>
    obtain ⟨hc, hrest⟩ := h
    rw [widthOf] at hfit
    have hright := @bytes_add_total left c.node w.length (by omega) hw
    have hwidth : c.node.total.bytes = c.node.width := by
      have : c.node.width = c.node.label.padding.bytes + c.node.label.size.bytes := rfl
      simp only [total, Length.bytes_add, addCounts]
      omega
    have hnext : exact → left + c.node.total = .upTo w (left + c.node.total).bytes := fun he =>
      (hm he).1.add_total hw (by omega) (hleft he)
    have ih := @ih (index + 1) (left + c.node.total) hnext (by omega) (by omega) (by omega) (by omega)
      (by rwa [hright, ← List.drop_drop]) fun he => by
        rw [hright, ← List.drop_drop]
        exact (hm he).2
    rw [hright] at ih
    unfold editChildren
    simp only [hright, hwidth, show e.absorbed.start = e.start from rfl,
      show e.absorbed.oldEnd = e.oldEnd from rfl, show e.absorbed.absorbed = e.absorbed from rfl,
      Bool.false_eq_true, and_false, or_false]
    split
    · rename_i hskip
      simp only [addCounts] at hskip
      omega
    split
    · -- everything that was taken away lies before
      rename_i hstop
      exact passes_after (by omega) (by omega)
    rename_i hstop
    split
    · have hlo : left.bytes ≤ e.oldEnd.bytes := by omega
      have hpart := @Edit.Part.absorbed exact e w w' left whole c.node.width ht hw hleft hw' hs hlo
        hs' (by omega) (by omega)
      rw [show e.newEnd.bytes + (left.bytes - e.oldEnd.bytes) = e.newEnd.bytes by omega]
      refine passes_cons hw hc hpart ?_ ih
      have hafter := @Edit.widthAfter_dropped e.absorbed left c.node.width rfl hs
      rw [hafter, show e.absorbed.oldEnd = e.oldEnd from rfl]
      omega
    · -- a tree without extent at the very end of what was taken away
      rename_i htake
      have hzero : c.node.width = 0 := by omega
      have hpart := @Edit.Part.spent exact e w w' left whole ht hw hleft (by omega) (by omega)
      rw [← hzero] at hpart
      rw [show e.newEnd.bytes + (left.bytes - e.oldEnd.bytes) = e.newEnd.bytes by omega]
      refine passes_cons hw hc hpart ?_ ih
      rw [(Edit.after_of_void rfl rfl _).1]
      omega

/-- The trees up to the one that takes in the new text stay where they are, and those after it move
along. -/
lemma passes_edit (hl : left.bytes ≤ e.start.bytes) (hindex : left.bytes = e.oldEnd.bytes → index = 0)
    (h : HoldsAll (fun _ _ => True) (w.drop left.bytes) cs)
    (hm : exact → MeasuredAll (w.drop left.bytes) cs) :
    List.Forall₂ (Passes exact e generation whole w w') (placed left.bytes cs)
      (placed left.bytes (editChildren generation place e e.isInsertion index left cs)) := by
  have h1 := ht.turns.start_le
  have h2 := ht.turns.oldEnd_le
  have h3 := ht.turns.le_newEnd
  induction cs generalizing index left with
  | nil => exact .nil
  | cons c rest ih =>
    obtain ⟨hc, hrest⟩ := h
    rw [widthOf] at hfit
    have hright := @bytes_add_total left c.node w.length (by omega) hw
    have hnext : exact → left + c.node.total = .upTo w (left + c.node.total).bytes := fun he =>
      (hm he).1.add_total hw (by omega) (hleft he)
    have hrest' : HoldsAll (fun _ _ => True) (w.drop (left + c.node.total).bytes) rest := by
      rwa [hright, ← List.drop_drop]
    have hmrest : exact → MeasuredAll (w.drop (left + c.node.total).bytes) rest := fun he => by
      rw [hright, ← List.drop_drop]
      exact (hm he).2
    have ih : left.bytes + c.node.width ≤ e.start.bytes →
        (left.bytes + c.node.width = e.oldEnd.bytes → index + 1 = 0) → _ := fun hle hne =>
      @ih (index + 1) (left + c.node.total) hnext (by omega) (by omega) (by omega) hrest' hmrest
    rw [hright] at ih
    unfold editChildren
    simp only [hright]
    split
    · rename_i hskip
      simp only [addCounts] at hskip
      exact .cons (.before (by omega)) (ih (by omega) (by omega))
    split
    · rename_i hstop
      omega
    rename_i hstop
    simp only [Edit.isInsertion, beq_iff_eq]
    split
    · -- this tree takes in the new text
      rename_i htake
      have hpart := @Edit.Part.relativeTo exact e w w' left whole c.node.width ht hw hleft hw' hl
        (by omega)
      have hothers := @passes_absorbed exact generation place e (index + 1) whole
        (left + c.node.total) w w' rest ht hw hw' hnext (by omega) hwhole (Nat.succ_pos _) (by omega)
        (by omega) hrest' hmrest
      rw [hright] at hothers
      exact passes_cons hw hc hpart (Edit.widthAfter_relativeTo h1 h3 hl htake) hothers
    · rename_i htake
      have hle : left.bytes + c.node.width ≤ e.start.bytes := by omega
      have hpart := @Edit.Part.collapsed exact e w w' left whole c.node.width ht hw hleft hle
        (by omega)
      refine passes_cons hw hc hpart (by rw [(Edit.after_of_void rfl rfl _).1]) ?_
      simpa only [Edit.isInsertion] using ih hle (by omega)

end

/-! ## Nodes at their paths -/

mutual

/-- The extents of a tree are those of the text that it takes. -/
lemma Measured.of_take : ∀ {g : Green} {w v : List UInt8}, g.Measured w → g.Fits w →
    v.take g.width = w.take g.width → g.Measured v
  | node l cs, w, v, ⟨hl, hcs⟩, ⟨_, hc, _, _, hfits⟩, ht => by
    refine ⟨hl.of_take ht, MeasuredAll.of_take hcs hfits ?_⟩
    have hmin : min (widthOf cs) (node l cs).width = widthOf cs := Nat.min_eq_left hc
    have := congrArg (List.take (widthOf cs)) ht
    rwa [List.take_take, List.take_take, hmin] at this

/-- Measured trees depend only on the text that they take. -/
lemma MeasuredAll.of_take : ∀ {cs : List (Child Green)} {w v : List UInt8}, MeasuredAll w cs →
    HoldsAll (fun _ _ => True) w cs → v.take (widthOf cs) = w.take (widthOf cs) → MeasuredAll v cs
  | [], _, _, _, _, _ => trivial
  | c :: rest, w, v, ⟨hc, hr⟩, ⟨hfc, hfr⟩, ht => by
    rw [widthOf] at ht
    refine ⟨hc.of_take hfc ?_, MeasuredAll.of_take hr hfr ?_⟩
    · have := congrArg (List.take c.node.width) ht
      rwa [List.take_take, List.take_take, Nat.min_eq_left (Nat.le_add_right _ _)] at this
    · have := congrArg (List.drop c.node.width) ht
      rwa [List.drop_take, List.drop_take, Nat.add_sub_cancel_left] at this

end

/-- Of measured trees each is so from where it stands. -/
lemma MeasuredAll.of_mem_placed {w : List UInt8} {x y : Nat} {c : Child Green}
    {cs : List (Child Green)} (h : MeasuredAll (w.drop x) cs) (hc : (y, c) ∈ placed x cs) :
    c.node.Measured (w.drop y) := by
  induction cs generalizing x with
  | nil => cases hc
  | cons d cs ih =>
    rcases List.mem_cons.1 hc with heq | hc
    · obtain ⟨rfl, rfl⟩ := Prod.mk.inj heq
      exact h.1
    · exact ih (by rw [← List.drop_drop]; exact h.2) hc

/-- Whether no node of a tree reaches further than those above it, with as many bytes as `reach` says:
what a node was built from covers all that the nodes below it reach. -/
def Sheltered (reach : Green → Nat) (g : Green) : Prop :=
  ∀ path x k, g.locate? path = some (x, k) → ∀ path' y h, k.locate? path' = some (y, h) →
    y + reach h ≤ k.label.lookaheadEnd

/-- Below a sheltered tree every node is sheltered. -/
lemma Sheltered.locate {reach : Green → Nat} {g k : Green} {path : List Nat} {x : Nat}
    (h : Sheltered reach g) (hl : g.locate? path = some (x, k)) : Sheltered reach k := by
  intro path₁ y m hm
  have hlocate := locate?_append hl path₁
  rw [hm] at hlocate
  exact h (path ++ path₁) (x + y) m hlocate

/-- What an edit of a tree of `whole` bytes does to a node below it: it is kept, with as many bytes as
`reach` says, or edited by the part that falls to it. -/
inductive Carried (reach : Green → Nat) (exact : Prop) (e : Edit) (generation whole : Nat)
    (w w' : List UInt8) : Nat × Green → Nat × Green → Prop where
  | kept {x x' h} :
    (∀ a ≤ h.width, x' + a = e.shiftByte (x + a)) → e.Keeps whole x x' (reach h) →
    Carried reach exact e generation whole w w' (x, h) (x', h)
  | edited {x x' h e' place v v'} :
    e.Part exact whole w w' h.width x x' e' v v' → h.label.isUntouchedBy e' = false →
    Carried reach exact e generation whole w w' (x, h) (x', h.edit generation place e')

section

variable {reach : Green → Nat} {exact : Prop} {generation : Nat} {place : List Nat} {e : Edit}
  {whole : Nat} {w w' : List UInt8}

/-- Of related lists the elements are related. -/
lemma rel_getElem? {α β : Type} {R : α → β → Prop} {as : List α} {bs : List β}
    (h : List.Forall₂ R as bs) (i : Nat) : Option.Rel R as[i]? bs[i]? := by
  induction h generalizing i with
  | nil => exact .none
  | cons h _ ih =>
    cases i with
    | zero => exact .some h
    | succ i => exact ih i

/-- Searches from related values lead to related values. -/
lemma rel_bind {α β γ δ : Type} {R : α → β → Prop} {S : γ → δ → Prop} {o : Option α} {o' : Option β}
    {f : α → Option γ} {f' : β → Option δ} (h : Option.Rel R o o')
    (hf : ∀ a b, o = some a → o' = some b → R a b → Option.Rel S (f a) (f' b)) :
    Option.Rel S (o.bind f) (o'.bind f') := by
  cases h with
  | none => exact .none
  | some h => exact hf _ _ rfl rfl h

/-- What is computed from related values is related. -/
lemma rel_map {α β γ δ : Type} {R : α → β → Prop} {S : γ → δ → Prop} {o : Option α} {o' : Option β}
    {f : α → γ} {f' : β → δ} (h : Option.Rel R o o')
    (hf : ∀ a b, o = some a → o' = some b → R a b → S (f a) (f' b)) :
    Option.Rel S (o.map f) (o'.map f') := by
  cases h with
  | none => exact .none
  | some h => exact .some (hf _ _ rfl rfl h)

/-- A value is related to itself if the relation says so. -/
lemma rel_self {α : Type} {R : α → α → Prop} {o : Option α} (h : ∀ a, o = some a → R a a) :
    Option.Rel R o o := by
  cases o with
  | none => exact .none
  | some a => exact .some (h a rfl)

/-- What is carried by the part of an edit that falls to a node is carried by the edit. -/
lemma Carried.below {g : Green} {x x' : Nat} {e' : Edit} {v v' : List UInt8} {p q : Nat × Green}
    (hp : e.Part exact whole w w' g.width x x' e' v v')
    (h : Carried reach exact e' generation g.width v v' p q) (hle : p.1 + p.2.width ≤ g.width)
    (hle' : q.1 + q.2.width ≤ e'.widthAfter g.width) (hw : w.length ≤ limit)
    (hfits : p.2.Fits (v.drop p.1)) :
    Carried reach exact e generation whole w w' (x + p.1, p.2) (x' + q.1, q.2) := by
  cases h with
  | @kept y y' h hshift hkeeps =>
    refine .kept (fun a ha => ?_) (hp.keeps _ _ _ hkeeps)
    dsimp only at hle ha
    rw [Nat.add_assoc, hshift a ha, hp.shift (y + a) (by omega), Nat.add_assoc]
  | @edited y y' h e'' place u u' hpart htouched =>
    have hwidth := @width_part exact generation place e' g.width v v' h _ _ _ _ _ hfits hpart
      (by rw [hp.length]; omega)
    dsimp only at hle'
    rw [hwidth] at hle'
    exact .edited (hp.trans hpart hle hle') htouched

/-- What was looked at ends after the node and its lookahead, or at the limit. -/
lemma lookaheadEnd_eq (g : Green) :
    g.label.lookaheadEnd = min (g.width + g.label.lookahead) limit := by
  have hwidth : g.width = g.label.padding.bytes + g.label.size.bytes := rfl
  simp only [Label.lookaheadEnd, Label.total, Length.bytes_add, addCounts]
  omega

/-- A node that an edit leaves as it is keeps all nodes below it. -/
lemma Carried.untouched {g h : Green} {x : Nat} {path : List Nat} (ht : e.Turns w w')
    (hw : w.length ≤ limit) (hg : Sheltered reach g) (hfits : g.Fits w)
    (hun : g.label.isUntouchedBy e = true) (hl : g.locate? path = some (x, h)) :
    Carried reach exact e generation whole w w' (x, h) (x, h) := by
  have h1 := ht.start_le
  have h2 := ht.oldEnd_le
  have hreach := hg [] 0 g rfl path x h hl
  obtain ⟨-, hle⟩ := hfits.locate hl
  have hfit := hfits.width_le
  have hend := lookaheadEnd_eq g
  simp only [Label.isUntouchedBy, Edit.isVoid, Edit.isInsertion, Bool.or_eq_true, Bool.and_eq_true,
    decide_eq_true_eq, beq_iff_eq] at hun
  refine .kept (fun a ha => ?_) (.inr (.inl ⟨rfl, by omega⟩))
  unfold Edit.shiftByte
  split_ifs <;> omega

/-- A node that is passed by keeps all nodes below it. -/
lemma Carried.passed {c : Green} {x y : Nat} {h : Green} {path : List Nat} (ht : e.Turns w w')
    (hfits : c.Fits (w.drop x)) (hg : Sheltered reach c)
    (hl : c.locate? path = some (y, h)) :
    (x + c.width + c.label.lookahead < e.start.bytes →
      Carried reach exact e generation whole w w' (x + y, h) (x + y, h)) ∧
    (e.oldEnd.bytes ≤ x → e.start.bytes < whole →
      Carried reach exact e generation whole w w' (x + y, h)
        (e.newEnd.bytes + (x - e.oldEnd.bytes) + y, h)) := by
  have hreach := hg [] 0 _ rfl path y h hl
  have hend := lookaheadEnd_eq c
  obtain ⟨-, hle⟩ := hfits.locate hl
  have h1 := ht.start_le
  refine ⟨fun hlt => .kept (fun a ha => ?_) (.inr (.inl ⟨rfl, by omega⟩)), fun ho hs =>
    .kept (fun a ha => ?_) (.inr (.inr ⟨by omega, by omega, hs⟩))⟩
  · unfold Edit.shiftByte
    rw [if_neg (by omega), if_neg (by omega)]
  · unfold Edit.shiftByte
    rw [if_pos (by omega)]
    omega

/-- What an edit does to the nodes of a tree, by their paths: the same paths lead to nodes before and
after it, and each of these nodes is kept or edited. -/
theorem carried_locate (path : List Nat) {g : Green} (ht : e.Moves exact w w')
    (hw : w.length ≤ limit) (hw' : w'.length ≤ limit) (hfits : g.Fits w)
    (hm : exact → g.Measured w) (hg : Sheltered reach g) :
    Option.Rel (Carried reach exact e generation g.width w w') (g.locate? path)
      ((g.edit generation place e).locate? path) := by
  -- by induction on the path: below an edited node, what is carried by its part of the edit
  induction path generalizing g e w w' place with
  | nil =>
    obtain ⟨l, cs⟩ := g
    rw [edit]
    split
    · rename_i hun
      exact rel_self fun p hl => .untouched ht.turns hw hg hfits hun hl
    · rename_i hun
      have := @Carried.edited reach exact e generation _ w w' 0 0 (node l cs) e place w w'
        (.refl ht hw' _) (Bool.eq_false_iff.2 hun)
      rw [edit, if_neg hun] at this
      exact .some this
  | cons i path ih =>
    obtain ⟨l, cs⟩ := g
    rw [edit]
    split
    · rename_i hun
      exact rel_self fun p hl => .untouched ht.turns hw hg hfits hun hl
    have hchildren := hfits
    obtain ⟨hle, hc, -, -, hs⟩ := hchildren
    have hpasses := @passes_edit exact generation place e 0 (node l cs).width .zero w w' cs ht hw
      hw' (fun _ => rfl) (by rw [show (Length.zero).bytes = 0 from rfl, Nat.zero_add]; exact hc) hle
      (Nat.zero_le _) (fun _ => rfl) hs (fun he => (hm he).2)
    rw [locate?, locate?]
    refine rel_bind (rel_getElem? hpasses i) fun p q hp _ hpass => ?_
    obtain ⟨x, c⟩ := p
    obtain ⟨hcfits, -, -⟩ := HoldsAll.of_mem_placed (x := 0) hs (List.mem_of_getElem? hp)
    have hcg : Sheltered reach c.node :=
      hg.locate (locate?_cons.2 ⟨x, c, 0, hp, rfl, rfl⟩ : (node l cs).locate? [i] = some (x, c.node))
    cases hpass with
    | before hlt =>
      exact rel_map (rel_self fun _ _ => rfl) fun r r' hl _ hr => by
        subst hr
        exact (Carried.passed ht.turns hcfits hcg hl).1 hlt
    | after hx hstart =>
      exact rel_map (rel_self fun _ _ => rfl) fun r r' hl _ hr => by
        subst hr
        exact (Carried.passed ht.turns hcfits hcg hl).2 hx hstart
    | @meets _ x' f g e' place' v v' hpart =>
      dsimp only at hcfits hcg
      have hv : v.length ≤ limit := by
        rw [hpart.length]
        omega
      have hgfits := hpart.fits hcfits
      have hgm : exact → g.Measured v := fun he =>
        ((hm he).2.of_mem_placed (x := 0) (List.mem_of_getElem? hp)).of_take hcfits hpart.text
      have hcarried := @ih place' e' v v' g hpart.moves hv hpart.length_le' hgfits hgm
        hcg
      have hgfits' := hgfits.edit generation place' hpart.moves.turns hv hpart.length_le'
      have hwidth := @width_edit generation place' e' v v' g hgfits hpart.moves.turns hv
        hpart.length_le'
      refine rel_map hcarried fun r r' hl hl' hr => ?_
      obtain ⟨hrfits, hrle⟩ := hgfits.locate hl
      obtain ⟨-, hrle'⟩ := hgfits'.locate hl'
      exact hr.below hpart hrle (by rw [← hwidth]; exact hrle') hw hrfits

/-- A node of the edited tree comes of the node at its path before. -/
lemma exists_carried {path : List Nat} {g : Green} {q : Nat × Green} (ht : e.Moves exact w w')
    (hw : w.length ≤ limit) (hw' : w'.length ≤ limit) (hfits : g.Fits w)
    (hm : exact → g.Measured w) (hg : Sheltered reach g)
    (hq : (g.edit generation place e).locate? path = some q) :
    ∃ p, g.locate? path = some p ∧ Carried reach exact e generation g.width w w' p q := by
  have hcarried := @carried_locate reach exact generation place e w w' path g ht hw hw' hfits hm hg
  rw [hq] at hcarried
  generalize g.locate? path = o at hcarried
  cases hcarried with
  | some h => exact ⟨_, rfl, h⟩

/-- The label of a node that is touched. -/
lemma label_edit {g : Green} (h : g.label.isUntouchedBy e = false) :
    (g.edit generation place e).label = g.label.edited ⟨generation, place⟩ e := by
  obtain ⟨l, cs⟩ := g
  have h : l.isUntouchedBy e = false := h
  rw [edit, if_neg (by rw [h]; exact Bool.false_ne_true)]
  rfl

end

end Green

end Reparse
