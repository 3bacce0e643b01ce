import Mathlib.Data.List.Basic
import Mathlib.Data.List.Perm.Subperm
import Mathlib.Data.List.TakeWhile
import Mathlib.Tactic.Lemma
import Reparse.Proofs.Decoding
import Reparse.Source.Basic

/-!
# Places

The rows and columns of a text, by the starts of its lines. From one place to a later one leads an
extent that depends on the lines between the two alone (`extent_beyond`), so that places add up
(`coherent_positionIn`) and that a stretch of text has the same extents wherever it stands
(`beyond_positionIn`).
-/

namespace Reparse

/-- Extents may be added in any order. -/
lemma Length.add_assoc (a b c : Length) : a + b + c = a + (b + c) := by
  have hp : ∀ p q r : Point, p + q + r = p + (q + r) := by
    intro p q r
    show Point.add (Point.add p q) r = Point.add p (Point.add q r)
    unfold Point.add
    by_cases hr : 0 < r.row
    · have hqr : 0 < addCounts q.row r.row := by
        simp only [addCounts, limit]
        omega
      by_cases hq : 0 < q.row
      · simp only [hr, hq, hqr, if_true, addCounts_assoc]
      · have hq' : q.row = 0 := Nat.eq_zero_of_not_pos hq
        simp only [hr, hq, hqr, if_true, if_false, Point.mk.injEq, and_true]
        rw [hq', addCounts, addCounts, addCounts]
        omega
    · by_cases hq : 0 < q.row
      · simp only [hr, hq, if_true, if_false]
      · simp only [hr, hq, if_false, addCounts_assoc]
  have hb : ∀ x y : Length, x.bytes = y.bytes → x.extent = y.extent → x = y := by
    rintro ⟨_, _⟩ ⟨_, _⟩ rfl rfl
    rfl
  exact hb _ _ (addCounts_assoc _ _ _) (hp _ _ _)

/-- Nothing is taken away from a point. -/
lemma Point.sub_zero (p : Point) : p - .zero = p := by
  show Point.sub p .zero = p
  unfold Point.sub
  split
  · rfl
  · rename_i hr
    have hr' : p.row = 0 := Nat.eq_zero_of_not_pos hr
    rw [← hr']
    rfl

/-- Nothing is between a point and itself. -/
lemma Point.sub_self (p : Point) : p - p = .zero := by
  show Point.sub p p = .zero
  unfold Point.sub
  rw [if_neg (Nat.lt_irrefl _), Nat.sub_self]
  rfl

/-- Whether a function gives places that add up, as far as `bound`. -/
structure Coherent (place : Nat → Length) (bound : Nat) : Prop where
  bytes : ∀ x, (place x).bytes = x
  zero : place 0 = .zero
  step : ∀ {x y}, x ≤ y → y ≤ bound → place x + (place y).beyond (place x) = place y

/-- Places that add up do so as far as any smaller bound. -/
lemma Coherent.mono {place : Nat → Length} {bound bound' : Nat} (h : Coherent place bound)
    (hle : bound' ≤ bound) : Coherent place bound' :=
  ⟨h.bytes, h.zero, fun hxy hy => h.step hxy (Nat.le_trans hy hle)⟩

namespace Places

/-- The lines that start after `x` and not after `y`. -/
def linesIn (lines : List Nat) (x y : Nat) : List Nat := lines.filter fun l => x < l && l ≤ y

/-- The row and column of a byte, by the starts of the lines. -/
def pointIn (lines : List Nat) (byte : Nat) : Point :=
  ⟨(lines.takeWhile (· ≤ byte)).length - 1, byte - (lines.takeWhile (· ≤ byte)).getLast?.getD 0⟩

/-- The position of a byte, by the starts of the lines. -/
def positionIn (lines : List Nat) (byte : Nat) : Length := ⟨byte, pointIn lines byte⟩

/-- The extent from `x` to `y`, by the lines that start between them. -/
def extentIn (lines : List Nat) (x y : Nat) : Point :=
  match (linesIn lines x y).getLast? with
  | none => ⟨0, y - x⟩
  | some l => ⟨(linesIn lines x y).length, y - l⟩

/-- Whether some numbers are the starts of the lines of a text: the first one is 0. -/
structure AreLines (lines : List Nat) : Prop where
  head : lines.head? = some 0
  sorted : lines.Pairwise (· < ·)

section

variable {lines : List Nat} (h : AreLines lines)

include h

/-- The lines that start up to `y` are those up to `x` and those between. -/
lemma takeWhile_eq {x y : Nat} (hxy : x ≤ y) :
    lines.takeWhile (· ≤ y) = lines.takeWhile (· ≤ x) ++ linesIn lines x y := by
  have hs := h.sorted
  clear h
  induction lines with
  | nil => rfl
  | cons l lines ih =>
    obtain ⟨hl, hs⟩ := List.pairwise_cons.1 hs
    by_cases hx : l ≤ x
    · have hy : l ≤ y := Nat.le_trans hx hxy
      have hn : ¬ (x < l) := Nat.not_lt.2 hx
      simp only [List.takeWhile_cons, hx, hy, decide_true, if_true, linesIn, List.filter_cons, hn,
        decide_false, Bool.false_and, Bool.false_eq_true, if_false, List.cons_append]
      rw [ih hs]
      rfl
    · have hnone : (l :: lines).takeWhile (· ≤ x) = [] :=
        List.takeWhile_cons_of_neg (by simpa using hx)
      rw [hnone, List.nil_append]
      clear ih
      have hlt : ∀ m ∈ l :: lines, x < m := by
        intro m hm
        rcases List.mem_cons.1 hm with rfl | hm
        · omega
        · have := hl m hm
          omega
      have hs' : (l :: lines).Pairwise (· < ·) := List.pairwise_cons.2 ⟨hl, hs⟩
      generalize l :: lines = ms at hlt hs'
      induction ms with
      | nil => rfl
      | cons m ms ih =>
        obtain ⟨hm, hms⟩ := List.pairwise_cons.1 hs'
        have hxm := hlt m (List.mem_cons_self ..)
        have ih := ih (fun k hk => hlt k (List.mem_cons_of_mem m hk)) hms
        by_cases hy : m ≤ y
        · simp only [List.takeWhile_cons, hy, decide_true, if_true, linesIn, List.filter_cons, hxm,
            Bool.true_and, ih]
        · rw [List.takeWhile_cons_of_neg (by simpa using hy)]
          refine (List.filter_eq_nil_iff.2 fun k hk => ?_).symm
          rcases List.mem_cons.1 hk with rfl | hk
          · simp [hy]
          · have := hm k hk
            simp only [Bool.and_eq_true, decide_eq_true_eq]
            omega

/-- The last line that starts at or before a byte. -/
lemma exists_line (x : Nat) : ∃ l, (lines.takeWhile (· ≤ x)).getLast? = some l ∧ l ≤ x := by
  obtain ⟨rest, rfl⟩ := List.head?_eq_some_iff.1 h.head
  have hne : ((0 :: rest).takeWhile (· ≤ x)) ≠ [] := by
    rw [List.takeWhile_cons_of_pos (by simp)]
    exact List.cons_ne_nil _ _
  obtain ⟨l, hl⟩ := Option.isSome_iff_exists.1 (List.getLast?_isSome.2 hne)
  exact ⟨l, hl, by simpa using List.mem_takeWhile_imp (List.mem_of_getLast? hl)⟩

/-- From one point to a later one leads the extent between them. -/
lemma sub_pointIn {x y : Nat} (hxy : x ≤ y) :
    pointIn lines y - pointIn lines x = extentIn lines x y := by
  obtain ⟨l, hl, hlx⟩ := exists_line h x
  have hpos := List.length_pos_iff.2 (List.ne_nil_of_mem (List.mem_of_getLast? hl))
  unfold pointIn extentIn
  rw [takeWhile_eq h hxy, List.getLast?_append, List.length_append, hl]
  show Point.sub _ _ = _
  unfold Point.sub
  cases hm : (linesIn lines x y).getLast? with
  | none =>
    have hnil : linesIn lines x y = [] := List.getLast?_eq_none_iff.1 hm
    simp only [hnil, List.length_nil, Nat.add_zero, Nat.lt_irrefl, if_false, Option.none_or,
      Option.getD_some, Point.mk.injEq, true_and]
    omega
  | some m =>
    have hmpos := List.length_pos_iff.2 (List.ne_nil_of_mem (List.mem_of_getLast? hm))
    rw [if_pos (by dsimp only; omega)]
    simp only [Option.some_or, Option.getD_some, Point.mk.injEq, and_true]
    omega

/-- A row is no greater than the byte. -/
lemma row_le (x : Nat) : (pointIn lines x).row ≤ x := by
  have hnodup : (lines.takeWhile (· ≤ x)).Nodup :=
    (h.sorted.sublist (List.takeWhile_sublist _)).imp fun h => Nat.ne_of_lt h
  have hsub : lines.takeWhile (· ≤ x) ⊆ List.range (x + 1) := fun l hl => by
    have hle : l ≤ x := by simpa using List.mem_takeWhile_imp hl
    exact List.mem_range.2 (by omega)
  have hle := (hnodup.subperm hsub).length_le
  rw [List.length_range] at hle
  simp only [pointIn]
  omega

/-- From one point, the extent to a later one leads there. -/
lemma add_extentIn {x y : Nat} (hxy : x ≤ y) (hy : y ≤ limit) :
    pointIn lines x + extentIn lines x y = pointIn lines y := by
  obtain ⟨l, hl, hlx⟩ := exists_line h x
  have hpos := List.length_pos_iff.2 (List.ne_nil_of_mem (List.mem_of_getLast? hl))
  have hrow := row_le h y
  revert hrow
  unfold extentIn pointIn
  rw [takeWhile_eq h hxy, List.getLast?_append, List.length_append, hl]
  show _ → Point.add _ _ = _
  unfold Point.add
  cases hm : (linesIn lines x y).getLast? with
  | none =>
    have hnil : linesIn lines x y = [] := List.getLast?_eq_none_iff.1 hm
    intro _
    simp only [hnil, List.length_nil, Nat.add_zero, Nat.lt_irrefl, if_false, Option.none_or,
      Option.getD_some, Point.mk.injEq, true_and]
    rw [addCounts_of_le (by omega)]
    omega
  | some m =>
    have hmpos := List.length_pos_iff.2 (List.ne_nil_of_mem (List.mem_of_getLast? hm))
    dsimp only
    intro hrow
    rw [if_pos hmpos, addCounts_of_le (by omega)]
    simp only [Option.some_or, Option.getD_some, Point.mk.injEq, and_true]
    omega

/-- From one position to a later one leads the extent between them. -/
lemma beyond_positionIn {x y : Nat} (hxy : x ≤ y) :
    (positionIn lines y).beyond (positionIn lines x) =
      if x < y then ⟨y - x, extentIn lines x y⟩ else .zero := by
  unfold Length.beyond
  split
  · rename_i hlt
    have hlt' : x < y := hlt
    rw [if_pos hlt', ← sub_pointIn h hxy]
    rfl
  · rename_i hlt
    exact (if_neg hlt).symm

/-- The places of a text add up. -/
theorem coherent_positionIn : Coherent (positionIn lines) limit where
  bytes _ := rfl
  zero := by
    obtain ⟨rest, rfl⟩ := List.head?_eq_some_iff.1 h.head
    have hnil : rest.takeWhile (· ≤ 0) = [] := by
      cases rest with
      | nil => rfl
      | cons l rest =>
        have hl := (List.pairwise_cons.1 h.sorted).1 l (List.mem_cons_self ..)
        exact List.takeWhile_cons_of_neg (by simpa using Nat.ne_of_gt hl)
    simp only [positionIn, pointIn]
    rw [List.takeWhile_cons_of_pos (by simp), hnil]
    rfl
  step {x y} hxy hy := by
    rw [beyond_positionIn h hxy]
    split
    · show Length.mk (addCounts x (y - x)) (pointIn lines x + extentIn lines x y) = _
      rw [addCounts_of_le (by omega), add_extentIn h hxy hy, Nat.add_sub_cancel' hxy]
      rfl
    · obtain rfl : x = y := by omega
      have ha := add_extentIn h (Nat.le_refl x) hy
      have hnil : linesIn lines x x = [] := List.filter_eq_nil_iff.2 fun l _ => by
        simp only [Bool.and_eq_true, decide_eq_true_eq]
        omega
      rw [extentIn, hnil, Nat.sub_self] at ha
      show Length.mk (addCounts x 0) (pointIn lines x + .zero) = _
      rw [addCounts_of_le (by omega), Nat.add_zero]
      exact congrArg (Length.mk x) ha

end

/-! ## The lines of a text -/

open Decode (widthOf widthOf_nil widthOf_cons widthOf_append)
open Source (laterLines)

/-- The starts of the lines of a text. -/
def linesOf (ds : List Decoded) : List Nat := 0 :: laterLines 0 ds

/-- The lines of a text in two parts are those of both. -/
lemma laterLines_append (byte : Nat) (a b : List Decoded) :
    laterLines byte (a ++ b) = laterLines byte a ++ laterLines (byte + widthOf a) b := by
  induction a generalizing byte with
  | nil => rfl
  | cons d a ih =>
    simp only [List.cons_append, laterLines, widthOf_cons, ih, Nat.add_assoc]
    split <;> rfl

/-- The lines of a text that starts elsewhere. -/
lemma laterLines_add (x byte : Nat) (ds : List Decoded) :
    laterLines (x + byte) ds = (laterLines byte ds).map (x + ·) := by
  induction ds generalizing byte with
  | nil => rfl
  | cons d ds ih =>
    simp only [laterLines, Nat.add_assoc, ih]
    split <;> rfl

/-- The lines after the first start inside the text. -/
lemma mem_laterLines {ds : List Decoded} (h : ∀ d ∈ ds, 0 < d.width) {byte l : Nat}
    (hl : l ∈ laterLines byte ds) : byte < l ∧ l ≤ byte + widthOf ds := by
  induction ds generalizing byte with
  | nil => cases hl
  | cons d ds ih =>
    have hd := h d (List.mem_cons_self ..)
    have ih := @ih (fun c hc => h c (List.mem_cons_of_mem d hc)) (byte + d.width)
    rw [widthOf_cons]
    simp only [laterLines] at hl
    split at hl
    · rcases List.mem_cons.1 hl with rfl | hl
      · omega
      · have := ih hl
        omega
    · have := ih hl
      omega

/-- As many lines start up to a character as there are line feeds before it. -/
lemma length_takeWhile_laterLines {ds : List Decoded} (h : ∀ d ∈ ds, 0 < d.width) (byte i : Nat) :
    ((laterLines byte ds).takeWhile (· ≤ byte + widthOf (ds.take i))).length =
      (ds.take i).countP fun d => d.char == '\n' := by
  induction ds generalizing byte i with
  | nil =>
    rw [List.take_nil]
    rfl
  | cons d ds ih =>
    cases i with
    | zero =>
      have hlt : ∀ l ∈ laterLines byte (d :: ds), byte < l := fun l hl => (mem_laterLines h hl).1
      have hnone : (laterLines byte (d :: ds)).takeWhile (· ≤ byte) = [] := by
        cases hl : laterLines byte (d :: ds) with
        | nil => rfl
        | cons l ls =>
          have hlt := hlt l (hl ▸ List.mem_cons_self ..)
          exact List.takeWhile_cons_of_neg (by simpa using hlt)
      exact congrArg List.length hnone
    | succ i =>
      have ih := ih (fun c hc => h c (List.mem_cons_of_mem d hc)) (byte + d.width) i
      simp only [List.take_succ_cons, widthOf_cons, ← Nat.add_assoc, laterLines, List.countP_cons]
      by_cases hd : d.char = '\n'
      · rw [if_pos hd, List.takeWhile_cons_of_pos (by simp), List.length_cons, ih, if_pos (by simpa)]
      · rw [if_neg hd, ih, if_neg (by simpa), Nat.add_zero]

/-- The starts of the lines of a text are in order. -/
lemma areLines_linesOf {ds : List Decoded} (h : ∀ d ∈ ds, 0 < d.width) : AreLines (linesOf ds) := by
  refine ⟨rfl, List.pairwise_cons.2 ⟨fun l hl => (mem_laterLines h hl).1, ?_⟩⟩
  generalize (0 : Nat) = byte
  induction ds generalizing byte with
  | nil => exact List.Pairwise.nil
  | cons d ds ih =>
    have hds : ∀ c ∈ ds, 0 < c.width := fun c hc => h c (List.mem_cons_of_mem d hc)
    simp only [laterLines]
    split
    · exact List.pairwise_cons.2 ⟨fun l hl => (mem_laterLines hds hl).1, ih hds _⟩
    · exact ih hds _

/-- The lines between two bytes of a stretch of text are those of the stretch. -/
lemma linesIn_append {a w b : List Decoded} (ha : ∀ d ∈ a, 0 < d.width) (hb : ∀ d ∈ b, 0 < d.width)
    {u v : Nat} (hv : v ≤ widthOf w) :
    linesIn (linesOf (a ++ w ++ b)) (widthOf a + u) (widthOf a + v) =
      (linesIn (linesOf w) u v).map (widthOf a + ·) := by
  have h1 : (laterLines 0 a).filter (fun l => widthOf a + u < l && l ≤ widthOf a + v) = [] :=
    List.filter_eq_nil_iff.2 fun l hl => by
      have := mem_laterLines ha hl
      simp only [Bool.and_eq_true, decide_eq_true_eq]
      omega
  have h2 : (laterLines (widthOf a + widthOf w) b).filter
      (fun l => widthOf a + u < l && l ≤ widthOf a + v) = [] :=
    List.filter_eq_nil_iff.2 fun l hl => by
      have := mem_laterLines hb hl
      simp only [Bool.and_eq_true, decide_eq_true_eq]
      omega
  have h3 : laterLines (widthOf a) w = (laterLines 0 w).map (widthOf a + ·) :=
    laterLines_add (widthOf a) 0 w
  have h0 : ∀ x y : Nat, ∀ ls, (0 :: ls).filter (fun l => x < l && l ≤ y) =
      ls.filter fun l => x < l && l ≤ y := fun x y ls => List.filter_cons_of_neg (by simp)
  unfold linesIn linesOf
  rw [h0, h0, laterLines_append, laterLines_append, List.filter_append, List.filter_append,
    Nat.zero_add, widthOf_append, Nat.zero_add, h1, h2, h3, List.nil_append, List.append_nil,
    List.filter_map]
  congr 1
  refine List.filter_congr fun l _ => ?_
  simp only [Function.comp_apply, Nat.add_lt_add_iff_left, Nat.add_le_add_iff_left]

/-- A stretch of text has the same extents wherever it stands. -/
theorem beyond_positionIn_append {a w b : List Decoded} (ha : ∀ d ∈ a, 0 < d.width)
    (hw : ∀ d ∈ w, 0 < d.width) (hb : ∀ d ∈ b, 0 < d.width) {u v : Nat} (huv : u ≤ v)
    (hv : v ≤ widthOf w) :
    (positionIn (linesOf (a ++ w ++ b)) (widthOf a + v)).beyond
        (positionIn (linesOf (a ++ w ++ b)) (widthOf a + u)) =
      (positionIn (linesOf w) v).beyond (positionIn (linesOf w) u) := by
  have hall : ∀ d ∈ a ++ w ++ b, 0 < d.width := by
    intro d hd
    rcases List.mem_append.1 hd with hd | hd
    · rcases List.mem_append.1 hd with hd | hd
      · exact ha d hd
      · exact hw d hd
    · exact hb d hd
  rw [beyond_positionIn (areLines_linesOf hall) (Nat.add_le_add_left huv _),
    beyond_positionIn (areLines_linesOf hw) huv]
  have he : extentIn (linesOf (a ++ w ++ b)) (widthOf a + u) (widthOf a + v) =
      extentIn (linesOf w) u v := by
    unfold extentIn
    rw [linesIn_append ha hb hv, List.getLast?_map]
    cases (linesIn (linesOf w) u v).getLast? with
    | none =>
      simp only [Option.map_none, Point.mk.injEq, true_and]
      omega
    | some l =>
      simp only [Option.map_some, List.length_map, Point.mk.injEq, true_and]
      omega
  simp only [Nat.add_lt_add_iff_left, he]
  split
  · congr 1
    omega
  · rfl

end Places

namespace Source

/-- The places of a source add up. -/
theorem coherent_positionAt (d : Document) (ranges : List Span) :
    Coherent (ofDocument d ranges).positionAt limit :=
  Places.coherent_positionIn (Places.areLines_linesOf fun _ h => Document.width_pos h)

end Source

end Reparse
