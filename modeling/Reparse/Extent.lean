/-!
# Points and lengths

A place in a document is counted twice: in bytes, and in rows and columns. Both counts are used
for absolute positions and for the extent of a piece of text, so that a position is the sum of
the extents before it. All counts are 32-bit numbers, and every operation stops at the ends of
that domain instead of leaving it.
-/

namespace Reparse

/-- The largest count: positions and extents stop here. -/
def limit : Nat := 4294967295

/-- Addition of counts, stopping at `limit`. -/
def addCounts (a b : Nat) : Nat := min (a + b) limit

/-- A sum is in the domain of counts. -/
theorem addCounts_le (a b : Nat) : addCounts a b ≤ limit := Nat.min_le_right _ _

/-- Below the limit counts add up as numbers do. -/
theorem addCounts_of_le {a b : Nat} (h : a + b ≤ limit) : addCounts a b = a + b :=
  Nat.min_eq_left h

/-- Capped sums do not depend on where the parentheses are. -/
theorem addCounts_assoc (a b c : Nat) :
    addCounts (addCounts a b) c = addCounts a (addCounts b c) := by
  simp only [addCounts]
  omega

/-- A zero-based row and column; columns count bytes. -/
structure Point where
  row : Nat
  column : Nat
deriving DecidableEq, Repr

namespace Point

/-- The start of every document. -/
def zero : Point := ⟨0, 0⟩

/-- The point that no document goes beyond. -/
def farthest : Point := ⟨limit, limit⟩

/-- Extends `p` by the extent `q`: an extent of several rows replaces the column. -/
def add (p q : Point) : Point :=
  if 0 < q.row then ⟨addCounts p.row q.row, q.column⟩ else ⟨p.row, addCounts p.column q.column⟩

/-- The extent that leads from `q` to `p`. -/
def sub (p q : Point) : Point :=
  if q.row < p.row then ⟨p.row - q.row, p.column⟩ else ⟨0, p.column - q.column⟩

instance : Add Point := ⟨add⟩

instance : Sub Point := ⟨sub⟩

/-- An extent inside one row moves the column. -/
theorem add_of_row_eq_zero {p q : Point} (h : q.row = 0) :
    p + q = ⟨p.row, addCounts p.column q.column⟩ := if_neg (by omega)

/-- An extent of several rows replaces the column. -/
theorem add_of_row_pos {p q : Point} (h : 0 < q.row) :
    p + q = ⟨addCounts p.row q.row, q.column⟩ := if_pos h

/-- Points are ordered by row, then by column. -/
instance : LT Point := ⟨fun p q => p.row < q.row ∨ (p.row = q.row ∧ p.column < q.column)⟩

instance : LE Point := ⟨fun p q => p.row < q.row ∨ (p.row = q.row ∧ p.column ≤ q.column)⟩

instance (p q : Point) : Decidable (p < q) :=
  inferInstanceAs (Decidable (p.row < q.row ∨ (p.row = q.row ∧ p.column < q.column)))

instance (p q : Point) : Decidable (p ≤ q) :=
  inferInstanceAs (Decidable (p.row < q.row ∨ (p.row = q.row ∧ p.column ≤ q.column)))

instance : Ord Point := ⟨fun p q => if p < q then .lt else if p = q then .eq else .gt⟩

/-- The point of offset `byte` in UTF-8 text, or of its end where the text is shorter. -/
def ofByte (text : List UInt8) (byte : Nat) : Point :=
  let before := text.take byte
  ⟨before.count 10, (before.reverse.takeWhile (· != 10)).length⟩

/-- The written form of a point, as in `(1, 4)`. -/
def display (p : Point) : String :=
  "(" ++ toString p.row ++ ", " ++ toString p.column ++ ")"

end Point

/-- A number of bytes together with the rows and columns that they span. -/
structure Length where
  bytes : Nat
  extent : Point
deriving DecidableEq, Repr

namespace Length

/-- The empty extent, which is also the start of every document. -/
def zero : Length := ⟨0, .zero⟩

/-- The position that no document goes beyond. -/
def farthest : Length := ⟨limit, .farthest⟩

/-- One extent after the other. -/
def add (a b : Length) : Length := ⟨addCounts a.bytes b.bytes, a.extent + b.extent⟩

/-- The extent that leads from `b` to `a`. -/
def sub (a b : Length) : Length := ⟨a.bytes - b.bytes, a.extent - b.extent⟩

instance : Add Length := ⟨add⟩

instance : Sub Length := ⟨sub⟩

/-- Bytes add up with the cap. -/
@[simp]
theorem bytes_add (a b : Length) : (a + b).bytes = addCounts a.bytes b.bytes := rfl

/-- Extents add up as points do. -/
@[simp]
theorem extent_add (a b : Length) : (a + b).extent = a.extent + b.extent := rfl

/-- Bytes are taken away down to zero. -/
@[simp]
theorem bytes_sub (a b : Length) : (a - b).bytes = a.bytes - b.bytes := rfl

/-- Extents are taken away as points are. -/
@[simp]
theorem extent_sub (a b : Length) : (a - b).extent = a.extent - b.extent := rfl

/-- What `a` has beyond `b`, and nothing where `b` is at least as many bytes. -/
def beyond (a b : Length) : Length := if b.bytes < a.bytes then a - b else zero

/-- What is beyond has the bytes that are left over, if there are any. -/
@[simp]
theorem bytes_beyond (a b : Length) : (a.beyond b).bytes = a.bytes - b.bytes := by
  unfold beyond
  split
  · rfl
  · simp only [zero]
    omega

end Length

end Reparse
