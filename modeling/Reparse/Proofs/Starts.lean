import Reparse.Proofs.Charts
import Reparse.Proofs.Reparsing

/-!
# Starts

Where the nodes of an edited tree start. An edit with the positions of a text takes the extents of a
tree to those of the new text (`Green.Measured.edit`), so that the node at a path starts where the edit
moves the start of the node that was there before (`Charted.map_start_edit`), after any number of
edits.
-/

namespace Reparse

namespace Edit

variable {e : Edit} {w w' : List UInt8}

/-- The edit that is made for a replacement in a text has the positions of its bytes. -/
lemma moves_applyTo {text replacement : List UInt8} {start stop : Nat} (hstart : start ≤ stop)
    (hstop : stop ≤ text.length) (hl : text.length ≤ limit)
    (hl' : (applyTo text start stop replacement).length ≤ limit)
    (he : ofReplacement? text start stop replacement = some e) :
    e.Moves True text (applyTo text start stop replacement) := by
  obtain ⟨hturns, h1, h2, h3⟩ := turns_applyTo hstart hstop hl hl' he
  have hlength : (text.take start ++ replacement).length = start + replacement.length := by
    rw [List.length_append, List.length_take, Nat.min_eq_left (Nat.le_trans hstart hstop)]
  have htake : (applyTo text start stop replacement).take (start + replacement.length) =
      text.take start ++ replacement := by
    rw [applyTo, ← hlength, List.take_left]
  have hle : (text.take start ++ replacement).length ≤ limit := by
    have := congrArg List.length htake
    rw [List.length_take] at this
    omega
  have hpoint : ∀ x, Point.ofByte text x = (Length.upTo text x).extent := by
    intro x
    simp only [Length.upTo, Length.of, Point.ofByte, List.take_length]
  have heq : ∀ {p q : Length}, p.bytes = q.bytes → p.extent = q.extent → p = q := by
    rintro ⟨_, _⟩ ⟨_, _⟩ rfl rfl
    rfl
  rw [ofReplacement?] at he
  split at he
  case isFalse => cases he
  obtain rfl := Option.some.inj he
  refine ⟨hturns, fun _ => heq ?_ ?_, fun _ => heq ?_ ?_, fun _ => heq ?_ ?_⟩
  · rw [h1, Length.bytes_upTo (Nat.le_trans hstart hstop)]
  · rw [h1]
    exact hpoint start
  · rw [h2, Length.bytes_upTo hstop]
  · rw [h2]
    exact hpoint stop
  · rw [h3, Length.upTo, htake, Length.bytes_of, hlength]
  · rw [h3, Length.upTo, htake, Length.of_append hle]
    show Point.ofByte text start + Point.ofByte replacement replacement.length = _
    rw [hpoint start]
    rfl

/-- An edit moves a position by its bytes. -/
lemma bytes_shift {p : Length} (ht : e.Turns w w') (hw' : w'.length ≤ limit)
    (hp : p.bytes ≤ w.length) : (e.shift p).bytes = e.shiftByte p.bytes := by
  have hl := ht.length
  have h2 := ht.oldEnd_le
  unfold shift shiftByte
  split
  · show addCounts e.newEnd.bytes (p.bytes - e.oldEnd.bytes) = _
    exact addCounts_of_le (by omega)
  · split <;> rfl

/-- Positions of a text are moved to positions of the text that the edit turns it into. -/
lemma shift_upTo (h : e.Moves True w w') (hw' : w'.length ≤ limit) {x : Nat} (hx : x ≤ w.length) :
    e.shift (.upTo w x) = .upTo w' (e.shiftByte x) := by
  have hl := h.turns.length
  unfold shift shiftByte
  rw [Length.bytes_upTo hx]
  split
  · rename_i ho
    rw [carry, h.oldEnd trivial, h.newEnd trivial, Length.upTo_sub w ho,
      ← h.turns.drop (Nat.le_refl e.oldEnd.bytes), Nat.sub_self, Nat.add_zero, Length.upTo_add hw',
      ← h.oldEnd trivial, ← h.newEnd trivial]
  · split
    · exact h.newEnd trivial
    · rename_i hs
      exact (Length.upTo_congr (h.turns.take (Nat.le_refl _)) (Nat.le_of_not_lt hs)).symm

end Edit

/-! ## Extents of edited trees -/

/-- An edited label has the extents of the new text. -/
lemma Label.Measured.reshape {e : Edit} {w w' : List UInt8} {l : Label} (h : l.Measured w)
    (ht : e.Moves True w w') (hw : w.length ≤ limit) (hw' : w'.length ≤ limit)
    (hfit : l.padding.bytes + l.size.bytes ≤ w.length) :
    ∃ x y, x ≤ w'.length ∧ (l.reshape e).1 = .upTo w' x ∧ (l.reshape e).2 = .upTo (w'.drop x) y := by
  have h1 := ht.turns.start_le
  have h2 := ht.turns.oldEnd_le
  have h3 := ht.turns.le_newEnd
  have hl := ht.turns.length
  have hoff : w'.drop e.newEnd.bytes = w.drop e.oldEnd.bytes := by
    have := ht.turns.drop (Nat.le_refl e.oldEnd.bytes)
    rwa [Nat.sub_self, Nat.add_zero] at this
  have htotal : l.total = .upTo w (l.padding.bytes + l.size.bytes) := by
    rw [Label.total]
    conv_lhs => rw [h.padding, h.size, Length.upTo_add hw]
  have htbytes : l.total.bytes = l.padding.bytes + l.size.bytes := by
    rw [htotal, Length.bytes_upTo hfit]
  have hbefore : ∀ {x}, x ≤ e.start.bytes → Length.upTo w x = .upTo w' x := fun hx =>
    (Length.upTo_congr (ht.turns.take (Nat.le_refl _)) hx).symm
  unfold Label.reshape
  rw [htbytes]
  split
  · rename_i ho
    refine ⟨e.newEnd.bytes + (l.padding.bytes - e.oldEnd.bytes), l.size.bytes, by omega, ?_, ?_⟩
    · conv_lhs => rw [h.padding, ht.newEnd trivial, ht.oldEnd trivial, Length.upTo_sub w ho, ← hoff,
        Length.upTo_add hw']
    · rw [ht.turns.drop ho]
      exact h.size
  split
  · rename_i ho hs
    refine ⟨e.newEnd.bytes, l.size.bytes - (e.oldEnd.bytes - l.padding.bytes), by omega,
      ht.newEnd trivial, ?_⟩
    have hgone : e.oldEnd - l.padding =
        .upTo (w.drop l.padding.bytes) (e.oldEnd.bytes - l.padding.bytes) := by
      conv_lhs => rw [h.padding, ht.oldEnd trivial, Length.upTo_sub w (by omega)]
    conv_lhs => rw [hgone, h.size, Length.upTo_beyond, List.drop_drop,
      Nat.add_sub_cancel' (show l.padding.bytes ≤ e.oldEnd.bytes by omega), ← hoff]
  split
  · rename_i ho _ hins
    simp only [Edit.isInsertion, beq_iff_eq] at hins
    omega
  rename_i ho hs _
  split
  · refine ⟨l.padding.bytes, e.newEnd.bytes - l.padding.bytes +
      (l.padding.bytes + l.size.bytes - e.oldEnd.bytes), by omega, ?_, ?_⟩
    · rw [← hbefore (by omega)]
      exact h.padding
    · have hnew : e.newEnd - l.padding =
          .upTo (w'.drop l.padding.bytes) (e.newEnd.bytes - l.padding.bytes) := by
        conv_lhs => rw [h.padding, hbefore (show l.padding.bytes ≤ e.start.bytes by omega),
          ht.newEnd trivial, Length.upTo_sub w' (by omega)]
      have hold : l.total.beyond e.oldEnd =
          .upTo (w.drop e.oldEnd.bytes) (l.padding.bytes + l.size.bytes - e.oldEnd.bytes) := by
        conv_lhs => rw [htotal, ht.oldEnd trivial, Length.upTo_beyond]
      have hdrop : (w'.drop l.padding.bytes).drop (e.newEnd.bytes - l.padding.bytes) =
          w.drop e.oldEnd.bytes := by
        rw [List.drop_drop, Nat.add_sub_cancel' (by omega), hoff]
      rw [hnew, hold, ← hdrop, Length.upTo_add (by rw [List.length_drop]; omega)]
  · have htake := ht.turns.take (show l.padding.bytes + l.size.bytes ≤ e.start.bytes by omega)
    obtain ⟨hp, hs⟩ := h.of_take htake
    exact ⟨l.padding.bytes, l.size.bytes, by omega, hp, hs⟩

namespace Green

variable {w w' : List UInt8}

/-- A tree that fits shelters all its nodes, as wide as they are. -/
lemma Fits.sheltered {g : Green} (h : g.Fits w) (hw : w.length ≤ limit) : Sheltered width g := by
  intro path x k hk path' y m hm
  obtain ⟨hfits, hle⟩ := h.locate hk
  obtain ⟨-, hle'⟩ := hfits.locate hm
  have hwidth := h.width_le
  rw [lookaheadEnd_eq]
  omega

/-- The nodes of a tree have the extents of the text that they stand on. -/
lemma Measured.locate {g h : Green} {x : Nat} {path : List Nat} (hg : g.Measured w)
    (hl : g.locate? path = some (x, h)) : h.Measured (w.drop x) := by
  induction path generalizing g x w with
  | nil =>
    obtain ⟨rfl, rfl⟩ := Prod.mk.inj (Option.some.inj hl)
    exact hg
  | cons i path ih =>
    obtain ⟨y, c, z, hc, hz, rfl⟩ := locate?_cons.1 hl
    obtain ⟨l, cs⟩ := g
    have := ih (hg.2.of_mem_placed (x := 0) (List.mem_of_getElem? hc)) hz
    rwa [List.drop_drop] at this

/-- A measured tree has a measured label. -/
lemma Measured.label {g : Green} (h : g.Measured w) : g.label.Measured w := by
  cases g
  exact h.1

/-- From where it is, the padding of a tree leads to its first byte, and its size to its end. -/
lemma Measured.steps {g : Green} {x : Nat} (h : g.Measured (w.drop x)) (hw : w.length ≤ limit) :
    Length.upTo w x + g.label.padding = .upTo w (x + g.label.padding.bytes) ∧
      Length.upTo w (x + g.label.padding.bytes) + g.label.size = .upTo w (x + g.width) := by
  have hwidth : g.width = g.label.padding.bytes + g.label.size.bytes := rfl
  constructor
  · conv_lhs => rw [h.label.padding, Length.upTo_add hw]
  · conv_lhs => rw [h.label.size, List.drop_drop, Length.upTo_add hw, Nat.add_assoc, ← hwidth]

/-- Trees are measured if each is where it stands. -/
lemma MeasuredAll.of_placed {x : Nat} {cs : List (Child Green)}
    (h : ∀ p ∈ placed x cs, p.2.node.Measured (w.drop p.1)) : MeasuredAll (w.drop x) cs := by
  induction cs generalizing x with
  | nil => trivial
  | cons c cs ih =>
    refine ⟨h (x, c) (List.mem_cons_self ..), ?_⟩
    rw [List.drop_drop]
    exact ih fun p hp => h p (List.mem_cons_of_mem _ hp)

/-- A tree has the extents of a text if all its labels do. -/
lemma Measured.of_locate {g : Green} (h : ∀ path x k, g.locate? path = some (x, k) →
    k.label.Measured (w.drop x)) : g.Measured w := by
  induction g using Green.induct generalizing w with
  | node l cs ih =>
    refine ⟨h [] 0 _ rfl, MeasuredAll.of_placed (x := 0) fun p hp => ?_⟩
    obtain ⟨i, hi⟩ := List.getElem?_of_mem hp
    refine ih p.2 (mem_of_mem_placed hp) fun path x k hl => ?_
    have := h (i :: path) (p.1 + x) k (locate?_cons.2 ⟨p.1, p.2, x, hi, hl, rfl⟩)
    rwa [← List.drop_drop] at this

variable {e : Edit} {generation : Nat} {place : List Nat}

/-- An edited tree has the extents of the text that the edit makes. -/
theorem Measured.edit {g : Green} (h : g.Measured w) (hfits : g.Fits w) (ht : e.Moves True w w')
    (hw : w.length ≤ limit) (hw' : w'.length ≤ limit) :
    (g.edit generation place e).Measured w' := by
  refine .of_locate fun path x' k' hl' => ?_
  obtain ⟨⟨x, k⟩, hl, hcarried⟩ := exists_carried ht hw hw' hfits (fun _ => h) (hfits.sheltered hw) hl'
  have hk := h.locate hl
  obtain ⟨hkfits, -⟩ := hfits.locate hl
  cases hcarried with
  | kept _ hkeeps =>
    obtain ⟨l, cs⟩ := k'
    exact hk.1.of_take (hkeeps.text ht.turns)
  | @edited _ _ k e' place v v' hpart htouched =>
    have hkv := hk.of_take hkfits hpart.text
    have hvfits := hpart.fits hkfits
    have hv : v.length ≤ limit := by
      rw [hpart.length]
      omega
    obtain ⟨l, cs⟩ := k
    have hle := hvfits.width_le
    have hwidth : (node l cs).width = l.padding.bytes + l.size.bytes := rfl
    rw [hwidth] at hle
    have hl' := hpart.moves.turns.length
    have h2 := hpart.moves.turns.oldEnd_le
    obtain ⟨a, b, ha, hp, hs⟩ := hkv.1.reshape hpart.moves hv hpart.length_le' hle
    have hbytes := Label.bytes_reshape (l := l) hpart.moves.turns.start_le hpart.moves.turns.le_newEnd
      (by omega) (by
        have := hpart.length_le'
        omega)
    have hmeasured : (l.edited ⟨generation, place⟩ e').Measured v' := by
      refine ⟨?_, ?_⟩
      · show (l.reshape e').1 = .upTo v' (l.reshape e').1.bytes
        rw [hp, Length.upTo_bytes]
      · show (l.reshape e').2 = .upTo (v'.drop (l.reshape e').1.bytes) (l.reshape e').2.bytes
        rw [hp, hs, Length.bytes_upTo ha, Length.upTo_bytes]
    rw [label_edit htouched]
    refine hmeasured.of_take ?_
    rw [show (l.edited ⟨generation, place⟩ e').padding.bytes +
      (l.edited ⟨generation, place⟩ e').size.bytes = e'.widthAfter (l.padding.bytes + l.size.bytes)
      from hbytes.2]
    exact hpart.text'.symm

end Green

/-! ## Starts of nodes -/

namespace Tree

variable {d d' : Document} {t : Tree} {e : Edit}

/-- An edited tree still fits, and still has the extents of the text if the edit has its positions. -/
lemma Spans.edit (h : t.Spans d) (generation : Nat) (ht : e.Moves True d.bytes d'.bytes)
    (he : d'.encoding = d.encoding) (hd : d.bytes.length ≤ limit) (hd' : d'.bytes.length ≤ limit) :
    (t.edit generation e).Spans d' where
  fits := h.fits.edit generation [] ht.turns hd hd'
  measured hutf8 := (h.measured (he ▸ hutf8)).edit h.fits ht hd hd'

/-- A tree that was edited as its text was still fits and has the extents of it. -/
lemma Spans.replaced {d₀ : Document} {t₀ : Tree} (h : t₀.Spans d₀) (hd : d₀.bytes.length ≤ limit)
    (hr : Replaced d₀ t₀ d t) : d.bytes.length ≤ limit ∧ t.Spans d := by
  induction hr with
  | refl => exact ⟨hd, h⟩
  | tail generation _ he hl ih =>
    obtain ⟨hlength, hspans⟩ := ih
    obtain ⟨start, stop, replacement, hstart, hstop, he, rfl⟩ := he
    exact ⟨hl, hspans.edit generation (Edit.moves_applyTo hstart hstop hlength hl he) rfl hlength hl⟩

end Tree

namespace Node

variable {w : List UInt8}

/-- Whether a node starts at the position that a text gives to its first byte, and so do those below
it. -/
def Plotted (w : List UInt8) (n : Node) : Prop :=
  ∃ x ≤ w.length, n.start = .upTo w (x + n.green.label.padding.bytes) ∧
    n.green.Fits (w.drop x) ∧ n.green.Measured (w.drop x)

/-- Measured trees in a row are plotted. -/
lemma plotted_layOutAfter (t : Tree) {cs : List (Child Green)} {x : Nat} (hw : w.length ≤ limit)
    (hfit : x + Green.widthOf cs ≤ w.length) (h : Green.HoldsAll (fun _ _ => True) (w.drop x) cs)
    (hm : Green.MeasuredAll (w.drop x) cs) :
    ∀ e ∈ Green.layOutAfter (.upTo w x) cs, (Node.mk t e.1.node e.2).Plotted w := by
  induction cs generalizing x with
  | nil => exact fun _ h => absurd h List.not_mem_nil
  | cons c cs ih =>
    obtain ⟨hc, hcs⟩ := h
    obtain ⟨hmc, hmcs⟩ := hm
    rw [List.drop_drop] at hcs hmcs
    rw [Green.widthOf] at hfit
    obtain ⟨hstart, hstop⟩ := hmc.steps hw
    intro e he
    rw [Green.layOutAfter, hstart, hstop] at he
    rcases List.mem_cons.1 he with rfl | he
    · exact ⟨x, by omega, rfl, hc, hmc⟩
    · exact ih (by omega) hcs hmcs e he

/-- The children of a node start at the positions of their first bytes if the node does. -/
lemma Plotted.children {n : Node} (h : n.Plotted w) (hw : w.length ≤ limit) :
    ∀ c ∈ n.children, c.Plotted w := by
  obtain ⟨t, ⟨l, cs⟩, start⟩ := n
  obtain ⟨x, hx, hstart, ⟨hle, hc, hp, -, hs⟩, -, hms⟩ := h
  dsimp only [Green.label] at hstart
  rw [List.length_drop] at hle
  intro m hm
  obtain ⟨e, he, rfl⟩ := List.mem_map.1 hm
  obtain ⟨⟨c, s⟩, hcs, rfl⟩ := List.mem_map.1 he
  cases cs with
  | nil => cases hcs
  | cons c₁ cs =>
    obtain ⟨hc₁, hcs₁⟩ := hs
    obtain ⟨hmc₁, hmcs₁⟩ := hms
    rw [List.drop_drop] at hcs₁ hmcs₁
    have hpad : c₁.node.label.padding.bytes = l.padding.bytes := hp c₁ rfl
    rw [Green.widthOf] at hc
    rcases List.mem_cons.1 hcs with heq | hcs
    · cases heq
      exact ⟨x, hx, by rw [hpad]; exact hstart, hc₁, hmc₁⟩
    · dsimp only at hcs
      rw [hstart, ← hpad, (hmc₁.steps hw).2] at hcs
      exact plotted_layOutAfter t hw (by omega) hcs₁ hmcs₁ (c, s) hcs

/-- All nodes below a node start at the positions of their first bytes if the node does. -/
lemma Plotted.descend? {n m : Node} {path : List Nat} (h : n.Plotted w) (hw : w.length ≤ limit)
    (hm : n.descend? path = some m) : m.Plotted w := by
  induction path generalizing n with
  | nil =>
    obtain rfl := Option.some.inj hm
    exact h
  | cons i path ih =>
    obtain ⟨c, hc, hm⟩ := Option.bind_eq_some_iff.1 hm
    exact ih (h.children hw c (List.mem_of_getElem? hc)) hm

/-- A plotted node starts at the extent of the text before it. -/
lemma Plotted.start_eq {n : Node} (h : n.Plotted w) :
    n.start = .upTo w n.startByte ∧ n.startByte ≤ w.length := by
  obtain ⟨x, hx, hs, hfits, -⟩ := h
  have hle := hfits.width_le
  rw [List.length_drop] at hle
  have hpad : n.green.label.padding.bytes ≤ n.green.width := Nat.le_add_right _ _
  have hbyte : n.startByte = x + n.green.label.padding.bytes := by
    rw [startByte, hs, Length.bytes_upTo (by omega)]
  rw [hbyte]
  exact ⟨hs, by omega⟩

end Node

/-- A node that is carried along starts where the edit moves the byte at which it started. -/
lemma Green.Carried.start {reach : Green → Nat} {exact : Prop} {e : Edit} {generation whole : Nat}
    {w w' : List UInt8} {p q : Nat × Green} (h : Carried reach exact e generation whole w w' p q)
    (hfits : p.2.Fits (w.drop p.1)) (hw : w.length ≤ limit) :
    q.1 + q.2.label.padding.bytes = e.shiftByte (p.1 + p.2.label.padding.bytes) := by
  cases h with
  | kept hshift _ => exact hshift _ (Nat.le_add_right _ _)
  | @edited x x' k e' place v v' hpart _ =>
    obtain ⟨-, -, hpad⟩ := @follows UInt8 (fun _ _ => True) k generation place e' v v'
      hpart.moves.turns (by rw [hpart.length]; omega) hpart.length_le' (hpart.fits hfits)
    dsimp only
    rw [hpad]
    exact hpart.shift _ (Nat.le_add_right _ _)

/-- The first byte of the node at a path is moved as the edit moves it. -/
lemma Tree.map_startByte_edit {d d' : Document} {t : Tree} {e : Edit} (generation : Nat)
    (hs : t.Spans d) (ht : e.Moves True d.bytes d'.bytes) (hd : d.bytes.length ≤ limit)
    (hd' : d'.bytes.length ≤ limit) (path : List Nat) :
    ((t.edit generation e).rootNode.descend? path).map (·.startByte) =
      (t.rootNode.descend? path).map fun n => e.shiftByte n.startByte := by
  have hbefore := congrArg (Option.map Prod.snd) (Node.descend?_eq (n := t.rootNode) (x := 0) hd
    (Nat.zero_le _) hs.fits (Nat.zero_add _).symm path)
  have hafter := congrArg (Option.map Prod.snd) (Node.descend?_eq
    (n := (t.edit generation e).rootNode) (x := 0) hd' (Nat.zero_le _)
    (hs.fits.edit generation [] ht.turns hd hd') (Nat.zero_add _).symm path)
  simp only [Option.map_map, Function.comp_def, Nat.zero_add] at hbefore hafter
  have hcarried := @Green.carried_locate Green.width False generation [] e d.bytes d'.bytes path t.root
    ht.turns.moves hd hd' hs.fits nofun (hs.fits.sheltered hd)
  rw [show (fun n : Node => e.shiftByte n.startByte) = e.shiftByte ∘ fun n => n.startByte from rfl,
    ← Option.map_map, hbefore, hafter]
  change Option.Rel _ (t.rootNode.green.locate? path)
    ((t.edit generation e).rootNode.green.locate? path) at hcarried
  generalize hl : t.rootNode.green.locate? path = o at hcarried
  generalize (t.edit generation e).rootNode.green.locate? path = o' at hcarried
  cases hcarried with
  | none => rfl
  | some h => exact congrArg some (h.start (hs.fits.locate hl).1 hd)

namespace Tree.Spans

variable {d : Document} {t : Tree} {n : Node} {path : List Nat}

/-- Every node starts inside the text. -/
lemma startByte_le (h : t.Spans d) (hd : d.bytes.length ≤ limit)
    (hn : t.rootNode.descend? path = some n) : n.startByte ≤ d.bytes.length := by
  have heq := Node.descend?_eq (n := t.rootNode) (x := 0) hd (Nat.zero_le _) h.fits
    (Nat.zero_add _).symm path
  rw [hn] at heq
  obtain ⟨⟨x, g⟩, hl, hg⟩ := Option.map_eq_some_iff.1 heq.symm
  obtain ⟨-, hle⟩ := h.fits.locate hl
  have hwidth : t.root.width ≤ d.bytes.length := h.fits.width_le
  have hpad : g.label.padding.bytes ≤ g.width := Nat.le_add_right _ _
  have hstart : 0 + x + g.label.padding.bytes = n.startByte := congrArg Prod.snd hg
  change x + g.width ≤ t.root.width at hle
  omega

/-- In a document of UTF-8, every node starts at the position of its first byte. -/
lemma start_eq (h : t.Spans d) (hd : d.bytes.length ≤ limit) (hutf8 : d.encoding = .utf8)
    (hn : t.rootNode.descend? path = some n) : n.start = .upTo d.bytes n.startByte := by
  have hmeasured := h.measured hutf8
  have hroot : t.rootNode.Plotted d.bytes := by
    refine ⟨0, Nat.zero_le _, ?_, h.fits, hmeasured⟩
    rw [Nat.zero_add]
    exact hmeasured.label.padding
  exact (hroot.descend? hd hn).start_eq.1

/-- In two trees of a document a subtree of both has the same start and end if it stands at the same
byte. -/
lemma eq_of_totalStart {t' : Tree} {m : Node} {path' : List Nat} (h : t.Spans d) (h' : t'.Spans d)
    (hd : d.bytes.length ≤ limit) (hutf8 : d.encoding = .utf8)
    (hn : t.rootNode.descend? path = some n) (hm : t'.rootNode.descend? path' = some m)
    (hgreen : n.green = m.green) (hbyte : n.totalStart = m.totalStart) :
    n.start = m.start ∧ n.stop = m.stop := by
  have hpadding := Tree.padding_le_of_descend? hd h.fits hn
  have hpadding' := Tree.padding_le_of_descend? hd h'.fits hm
  have hstart : n.startByte = m.startByte := by
    have hbyte' : n.startByte - n.green.label.padding.bytes = m.startByte - m.green.label.padding.bytes :=
      hbyte
    rw [hgreen] at hbyte' hpadding
    omega
  have heq : n.start = m.start := by
    rw [h.start_eq hd hutf8 hn, h'.start_eq hd hutf8 hm, hstart]
  refine ⟨heq, ?_⟩
  rw [Node.stop, Node.stop, heq, hgreen]

end Tree.Spans

/-- In a tree that has the coordinates of a document, also after any number of edits, an edit that is
made for a replacement moves every node as the text moves: the node at a path starts at the byte to
which the edit moves the start of the node that was there before. For UTF-8, by whose line breaks
replacements count rows and columns, it also starts at the row and column. -/
theorem Charted.map_start_edit {d₀ d : Document} {t₀ t : Tree} {start stop : Nat}
    {replacement : List UInt8} {e : Edit} (generation : Nat) (h₀ : Charted d₀ t₀)
    (hr : Replaced d₀ t₀ d t) (hstart : start ≤ stop) (hstop : stop ≤ d.bytes.length)
    (hl : (Edit.applyTo d.bytes start stop replacement).length ≤ limit)
    (he : Edit.ofReplacement? d.bytes start stop replacement = some e) (path : List Nat) :
    (((t.edit generation e).rootNode.descend? path).map fun n => n.start.bytes) =
        ((t.rootNode.descend? path).map fun n => (e.shift n.start).bytes) ∧
      (d.encoding = .utf8 →
        ((t.edit generation e).rootNode.descend? path).map (·.start) =
          (t.rootNode.descend? path).map fun n => e.shift n.start) := by
  obtain ⟨hd₀, hspans₀⟩ := h₀.spans
  obtain ⟨hd, hspans⟩ := hspans₀.replaced hd₀ hr
  have hmoves := Edit.moves_applyTo hstart hstop hd hl he
  have hbytes := @Tree.map_startByte_edit d ⟨Edit.applyTo d.bytes start stop replacement, d.encoding⟩ t
    e generation hspans hmoves hd hl path
  have hspans' := @Tree.Spans.edit d ⟨Edit.applyTo d.bytes start stop replacement, d.encoding⟩ t e
    hspans generation hmoves rfl hd hl
  constructor
  · rw [show (fun n : Node => n.start.bytes) = fun n => n.startByte from rfl, hbytes]
    refine Option.map_congr fun n hn => ?_
    exact (Edit.bytes_shift hmoves.turns hl (hspans.startByte_le hd hn)).symm
  · intro hutf8
    cases hn : t.rootNode.descend? path with
    | none =>
      rw [hn] at hbytes
      rw [Option.map_eq_none_iff.1 hbytes]
      rfl
    | some n =>
      rw [hn] at hbytes
      obtain ⟨m, hm, hbyte⟩ := Option.map_eq_some_iff.1 hbytes
      have hnstart := hspans.start_eq hd hutf8 hn
      have hmstart := hspans'.start_eq hl hutf8 hm
      rw [hm]
      refine congrArg some ?_
      dsimp only at hbyte ⊢
      rw [hmstart, hbyte, hnstart, Edit.shift_upTo hmoves hl (hspans.startByte_le hd hn)]

/-- A word is replaced in `x;`, then a line break is put in after it. -/
theorem Charted.map_start_edit_statement :
    ∃ t₀ t, (C.plainParser.parse C.stillWorld 0 ⟨[120, 59], .utf8⟩ none).1 = .ok t₀ ∧
      t = t₀.edit 1 ⟨.zero, ⟨1, ⟨0, 1⟩⟩, ⟨2, ⟨0, 2⟩⟩⟩ ∧
      ∀ path, ((t.edit 2 ⟨⟨2, ⟨0, 2⟩⟩, ⟨2, ⟨0, 2⟩⟩, ⟨3, ⟨1, 0⟩⟩⟩).rootNode.descend? path).map (·.start) =
        (t.rootNode.descend? path).map fun n =>
          Edit.shift ⟨⟨2, ⟨0, 2⟩⟩, ⟨2, ⟨0, 2⟩⟩, ⟨3, ⟨1, 0⟩⟩⟩ n.start := by
  obtain ⟨-, -, t₀, -, -, -, hp⟩ := @C.parse_of_neverFires C.plainParser C.stillWorld
    ⟨[120, 59], .utf8⟩ 0 rfl C.neverFires_plainParser
  have hcharted : Charted ⟨[120, 59], .utf8⟩ t₀ :=
    .parsed (.new rfl rfl) (fun _ ht => by cases ht) (by decide) hp
  have hreplaced : Replaced ⟨[120, 59], .utf8⟩ t₀ ⟨[121, 122, 59], .utf8⟩
      (t₀.edit 1 ⟨.zero, ⟨1, ⟨0, 1⟩⟩, ⟨2, ⟨0, 2⟩⟩⟩) :=
    @Replaced.tail _ _ _ _ 0 1 [121, 122] _ 1 .refl (by decide) (by decide) (by decide) (by decide)
  refine ⟨t₀, _, by rw [hp], rfl, fun path => ?_⟩
  exact (@Charted.map_start_edit _ _ _ _ 2 2 [10] _ 2 hcharted hreplaced (by decide) (by decide)
    (by decide) (by decide) path).2 rfl

end Reparse
