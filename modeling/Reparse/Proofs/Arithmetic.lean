import Reparse.Proofs.Places

/-!
# Arithmetic of extents

Positions are sums of extents, grouped along the paths of a tree. Adding keeps or replaces a column,
subtracting does so the other way round, and bytes, rows and columns each stop at the largest count on
their own. Whatever of this happens, sums may be regrouped; and differences undo sums exactly where no
count stopped, and sums differences exactly where the one extent is no longer than the other
(`Length.add_lawful`).
-/

namespace Reparse

/-! ## Counts -/

/-- What was added can be taken away again exactly if the sum was not capped. -/
lemma addCounts_sub_cancel_iff {a b : Nat} (ha : a ≤ limit) : addCounts a b - a = b ↔ a + b ≤ limit := by
  unfold addCounts
  omega

/-- What was taken away can be added again. -/
lemma addCounts_sub_of_le {a b : Nat} (hb : b ≤ limit) (h : a ≤ b) : addCounts a (b - a) = b := by
  rw [addCounts_of_le (by omega), Nat.add_sub_cancel' h]

/-- Only from a number as large can it be taken away and added again. -/
lemma le_of_addCounts_sub {a b : Nat} (ha : a ≤ limit) (h : addCounts a (b - a) = b) : a ≤ b := by
  unfold addCounts at h
  omega

/-- Nothing is added to a count. -/
lemma zero_addCounts {a : Nat} (ha : a ≤ limit) : addCounts 0 a = a := by
  rw [addCounts_of_le (by omega), Nat.zero_add]

/-! ## Points -/

namespace Point

/-- Whether row and column are in their domain. -/
structure Counted (p : Point) : Prop where
  row : p.row ≤ limit
  column : p.column ≤ limit

/-- Whether no count stops where `p` is extended by `q`. A column that is replaced is not added to. -/
structure HasRoom (p q : Point) : Prop where
  row : p.row + q.row ≤ limit
  column : q.row = 0 → p.column + q.column ≤ limit

variable {p q : Point}

/-- The sum of two points is in their domain. -/
lemma Counted.add (hp : p.Counted) (hq : q.Counted) : (p + q).Counted := by
  show (Point.add p q).Counted
  unfold Point.add
  split
  · exact ⟨addCounts_le _ _, hq.column⟩
  · exact ⟨hp.row, addCounts_le _ _⟩

/-- What is left of a point is in the domain. -/
lemma Counted.sub (hp : p.Counted) (q : Point) : (p - q).Counted := by
  show (Point.sub p q).Counted
  unfold Point.sub
  split
  · exact ⟨Nat.le_trans (Nat.sub_le _ _) hp.row, hp.column⟩
  · exact ⟨Nat.zero_le _, Nat.le_trans (Nat.sub_le _ _) hp.column⟩

/-- The origin may come before a point. -/
lemma Counted.zero_add (hp : p.Counted) : zero + p = p := by
  obtain ⟨row, column⟩ := p
  by_cases hpos : 0 < row
  · rw [add_of_row_pos hpos, zero, zero_addCounts hp.row]
  · obtain rfl : row = 0 := by omega
    rw [add_of_row_eq_zero rfl, zero, zero_addCounts hp.column]

/-- The origin may come after a point. -/
lemma Counted.add_zero (hp : p.Counted) : p + zero = p := by
  rw [add_of_row_eq_zero rfl, zero, addCounts_of_le hp.column, Nat.add_zero]

/-- What a point is extended by is the difference, unless a count stopped. -/
lemma add_sub_cancel_iff (hp : p.Counted) : p + q - p = q ↔ p.HasRoom q := by
  obtain ⟨r, c⟩ := p
  obtain ⟨r', c'⟩ := q
  by_cases hpos : 0 < r'
  · -- the column is replaced, and the difference keeps it unless the rows stopped at the row of `p`
    have hroom : HasRoom ⟨r, c⟩ ⟨r', c'⟩ ↔ r + r' ≤ limit :=
      ⟨fun h => h.row, fun h => ⟨h, fun hz => absurd hz (Nat.ne_of_gt hpos)⟩⟩
    rw [add_of_row_pos hpos, hroom, ← addCounts_sub_cancel_iff hp.row]
    show Point.sub _ _ = _ ↔ _
    unfold Point.sub
    dsimp only
    split
    · rw [Point.mk.injEq]
      exact and_iff_left rfl
    · rw [Point.mk.injEq]
      omega
  · obtain rfl : r' = 0 := by omega
    have hroom : HasRoom ⟨r, c⟩ ⟨0, c'⟩ ↔ c + c' ≤ limit :=
      ⟨fun h => h.column rfl, fun h => ⟨hp.row, fun _ => h⟩⟩
    rw [add_of_row_eq_zero rfl, hroom, ← addCounts_sub_cancel_iff hp.column]
    show Point.sub _ _ = _ ↔ _
    unfold Point.sub
    rw [if_neg (Nat.lt_irrefl _), Point.mk.injEq]
    exact and_iff_right rfl

/-- What leads from one point to another leads there, if that one does not come before. -/
lemma add_sub_of_le (hq : q.Counted) (h : p ≤ q) : p + (q - p) = q := by
  obtain ⟨r, c⟩ := p
  obtain ⟨r', c'⟩ := q
  have h : r < r' ∨ r = r' ∧ c ≤ c' := h
  by_cases hlt : r < r'
  · have hdiff : (⟨r', c'⟩ : Point) - ⟨r, c⟩ = ⟨r' - r, c'⟩ := if_pos hlt
    rw [hdiff, add_of_row_pos (Nat.sub_pos_of_lt hlt), addCounts_sub_of_le hq.row (Nat.le_of_lt hlt)]
  · obtain ⟨rfl, hle⟩ := h.resolve_left hlt
    have hdiff : (⟨r, c'⟩ : Point) - ⟨r, c⟩ = ⟨0, c' - c⟩ := if_neg hlt
    rw [hdiff, add_of_row_eq_zero rfl, addCounts_sub_of_le hq.column hle]

/-- The way from one point to another leads there exactly if it does not lead back. -/
lemma add_sub_iff (hp : p.Counted) (hq : q.Counted) : p + (q - p) = q ↔ p ≤ q := by
  refine ⟨fun h => ?_, add_sub_of_le hq⟩
  by_cases hlt : p.row < q.row
  · exact .inl hlt
  · have hdiff : q - p = ⟨0, q.column - p.column⟩ := if_neg hlt
    rw [hdiff, add_of_row_eq_zero rfl] at h
    have hrow := congrArg Point.row h
    exact .inr ⟨hrow, le_of_addCounts_sub hp.column (congrArg Point.column h)⟩

end Point

/-! ## Lengths -/

namespace Length

/-- Whether all counts are in their domain. -/
structure Counted (a : Length) : Prop where
  bytes : a.bytes ≤ limit
  row : a.extent.row ≤ limit
  column : a.extent.column ≤ limit

/-- Whether no count stops where `b` is added to `a`. -/
structure HasRoom (a b : Length) : Prop where
  bytes : a.bytes + b.bytes ≤ limit
  extent : a.extent.HasRoom b.extent

variable {a b : Length}

/-- Nothing is between a length and itself. -/
lemma sub_self (a : Length) : a - a = zero := by
  show (⟨a.bytes - a.bytes, a.extent - a.extent⟩ : Length) = _
  rw [Nat.sub_self, Point.sub_self]
  rfl

/-- Lengths are equal if their bytes and extents are. -/
lemma eq_iff : a = b ↔ a.bytes = b.bytes ∧ a.extent = b.extent := by
  obtain ⟨_, _⟩ := a
  obtain ⟨_, _⟩ := b
  rw [Length.mk.injEq]

/-- The extent of a length in the domain is in its own. -/
lemma Counted.extent (h : a.Counted) : a.extent.Counted := ⟨h.row, h.column⟩

/-- The length without bytes is in the domain. -/
lemma Counted.zero : zero.Counted := ⟨Nat.zero_le _, Nat.zero_le _, Nat.zero_le _⟩

/-- The sum of two lengths is in the domain. -/
lemma Counted.add (ha : a.Counted) (hb : b.Counted) : (a + b).Counted :=
  have h := ha.extent.add hb.extent
  ⟨addCounts_le _ _, h.row, h.column⟩

/-- What is left of a length is in the domain. -/
lemma Counted.sub (ha : a.Counted) (b : Length) : (a - b).Counted :=
  have h := ha.extent.sub b.extent
  ⟨Nat.le_trans (Nat.sub_le _ _) ha.bytes, h.row, h.column⟩

/-- What is beyond a length is in the domain. -/
lemma Counted.beyond (h : b.Counted) : (b.beyond a).Counted := by
  unfold Length.beyond
  split
  · exact h.sub a
  · exact .zero

/-- Nothing may come before a length. -/
lemma Counted.zero_add (ha : a.Counted) : .zero + a = a :=
  eq_iff.2 ⟨zero_addCounts ha.bytes, ha.extent.zero_add⟩

/-- Nothing may come after a length. -/
lemma Counted.add_zero (ha : a.Counted) : a + .zero = a :=
  eq_iff.2 ⟨addCounts_of_le ha.bytes, ha.extent.add_zero⟩

/-- A length that was added can be taken away again exactly if there was room for it. -/
lemma add_sub_cancel_iff (ha : a.Counted) : a + b - a = b ↔ a.HasRoom b := by
  rw [eq_iff, bytes_sub, bytes_add, extent_sub, extent_add, addCounts_sub_cancel_iff ha.bytes,
    Point.add_sub_cancel_iff ha.extent]
  exact ⟨fun h => ⟨h.1, h.2⟩, fun h => ⟨h.bytes, h.extent⟩⟩

/-- A length up to a later one leads there. -/
lemma add_sub_of_le (hb : b.Counted) (hbytes : a.bytes ≤ b.bytes) (hextent : a.extent ≤ b.extent) :
    a + (b - a) = b :=
  eq_iff.2 ⟨addCounts_sub_of_le hb.bytes hbytes, Point.add_sub_of_le hb.extent hextent⟩

/-- The way from one length to another leads there exactly if that one is later in its bytes and in its
extent. -/
lemma add_sub_iff (ha : a.Counted) (hb : b.Counted) :
    a + (b - a) = b ↔ a.bytes ≤ b.bytes ∧ a.extent ≤ b.extent := by
  refine ⟨fun h => ?_, fun h => add_sub_of_le hb h.1 h.2⟩
  obtain ⟨hbytes, hextent⟩ := eq_iff.1 h
  exact ⟨le_of_addCounts_sub ha.bytes hbytes, (Point.add_sub_iff ha.extent hb.extent).1 hextent⟩

/-- Extents that can be counted have sums and differences that can be counted. Sums may be regrouped, also
where counts stop, and the void extent adds nothing. Taking the first of two extents from their sum leaves
the second, exactly where no count stopped; and adding to an extent what another one has more gives that
one, exactly where the first is no longer than it, in bytes and in rows and columns. What an extent has
beyond another is the difference where it has more bytes, and nothing elsewhere. -/
theorem add_lawful (ha : a.Counted) (hb : b.Counted) :
    ((a + b).Counted ∧ (a - b).Counted ∧ (a.beyond b).Counted) ∧
    (∀ c, a + b + c = a + (b + c)) ∧ zero + a = a ∧ a + zero = a ∧
    (a + b - a = b ↔ a.HasRoom b) ∧
    (a + (b - a) = b ↔ a.bytes ≤ b.bytes ∧ a.extent ≤ b.extent) ∧
    (b.bytes < a.bytes → a.beyond b = a - b) ∧ (a.bytes ≤ b.bytes → a.beyond b = zero) :=
  ⟨⟨ha.add hb, ha.sub b, ha.beyond⟩, add_assoc a b, ha.zero_add, ha.add_zero,
    add_sub_cancel_iff ha, add_sub_iff ha hb, fun h => if_pos h, fun h => if_neg (Nat.not_lt.2 h)⟩

/-- Two lines and a byte after the second column of the second row. -/
theorem add_lawful_rows :
    (⟨10, ⟨1, 2⟩⟩ : Length).Counted ∧ (⟨6, ⟨2, 1⟩⟩ : Length).Counted ∧
      (⟨10, ⟨1, 2⟩⟩ : Length) + ⟨6, ⟨2, 1⟩⟩ - ⟨10, ⟨1, 2⟩⟩ = ⟨6, ⟨2, 1⟩⟩ := by
  have ha : (⟨10, ⟨1, 2⟩⟩ : Length).Counted := ⟨by decide, by decide, by decide⟩
  have hb : (⟨6, ⟨2, 1⟩⟩ : Length).Counted := ⟨by decide, by decide, by decide⟩
  obtain ⟨-, -, -, -, hcancel, -⟩ := add_lawful ha hb
  exact ⟨ha, hb, hcancel.2 ⟨by decide, by decide, by decide⟩⟩

end Length

end Reparse
