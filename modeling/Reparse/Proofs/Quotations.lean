import Mathlib.Tactic.Lemma
import Reparse.Node.Projection

/-!
# Quotations

Quoted text can be read back. Each character of a literal is written as itself, by a letter after a
backslash, or by its code point (`Spelled`); no spelling is the beginning of another one, and none begins
with a quote. So the text between quotes is known from what is written, and so is where it ends
(`plainAscii_append_inj`).
-/

namespace Reparse

/-- Lists that run up to the first members that stop them are equal if they are as far as they go on. -/
lemma append_cons_inj {α : Type} {stops : α → Prop} {a b r r' : List α} {x y : α}
    (ha : ∀ z ∈ a, ¬ stops z) (hb : ∀ z ∈ b, ¬ stops z) (hx : stops x) (hy : stops y)
    (h : a ++ x :: r = b ++ y :: r') : a = b ∧ x = y ∧ r = r' := by
  induction a generalizing b with
  | nil =>
    cases b with
    | nil => exact ⟨rfl, List.cons.inj h⟩
    | cons z b =>
      obtain rfl := (List.cons.inj h).1
      exact absurd hx (hb x (List.mem_cons_self ..))
  | cons z a ih =>
    cases b with
    | nil =>
      obtain rfl := (List.cons.inj h).1
      exact absurd hy (ha z (List.mem_cons_self ..))
    | cons z' b =>
      obtain ⟨rfl, hrest⟩ := List.cons.inj h
      obtain ⟨rfl, hxy⟩ := ih (fun z hz => ha z (List.mem_cons_of_mem _ hz))
        (fun z hz => hb z (List.mem_cons_of_mem _ hz)) hrest
      exact ⟨rfl, hxy⟩

namespace Text

/-! ## Digits -/

/-- The digits of code points. -/
def hexDigits : List Char := ['0', '1', '2', '3', '4', '5', '6', '7', '8', '9', 'a', 'b', 'c', 'd', 'e', 'f']

/-- A digit below 16 is hexadecimal. -/
lemma digitChar_mem {d : Nat} (h : d < 16) : d.digitChar ∈ hexDigits := by
  have hall : ∀ d : Fin 16, d.val.digitChar ∈ hexDigits := by decide
  exact hall ⟨d, h⟩

/-- No two digits below 16 are the same. -/
lemma digitChar_inj {d e : Nat} (hd : d < 16) (he : e < 16) (h : d.digitChar = e.digitChar) : d = e := by
  have hall : ∀ d e : Fin 16, d.val.digitChar = e.val.digitChar → d = e := by decide
  exact congrArg Fin.val (hall ⟨d, hd⟩ ⟨e, he⟩ h)

/-- A number is written in hexadecimal digits. -/
lemma mem_hexDigits {n : Nat} {c : Char} (h : c ∈ Nat.toDigits 16 n) : c ∈ hexDigits := by
  induction n using Nat.strongRecOn with
  | _ n ih =>
    rw [Nat.toDigits_eq_if (by decide)] at h
    split at h
    · rename_i hlt
      rw [List.mem_singleton.1 h]
      exact digitChar_mem hlt
    · rename_i hge
      rcases List.mem_append.1 h with h | h
      · exact ih (n / 16) (by omega) h
      · rw [List.mem_singleton.1 h]
        exact digitChar_mem (Nat.mod_lt n (by decide))

/-- A number is known from its digits. -/
lemma toDigits_inj {n m : Nat} (h : Nat.toDigits 16 n = Nat.toDigits 16 m) : n = m := by
  induction n using Nat.strongRecOn generalizing m with
  | _ n ih =>
    rw [Nat.toDigits_eq_if (by decide), Nat.toDigits_eq_if (n := m) (by decide)] at h
    split at h <;> split at h
    · exact digitChar_inj ‹_› ‹_› (List.cons.inj h).1
    · have hlength := congrArg List.length h
      have hpos := Nat.length_toDigits_pos (b := 16) (n := m / 16)
      rw [List.length_append, List.length_singleton, List.length_singleton] at hlength
      omega
    · have hlength := congrArg List.length h
      have hpos := Nat.length_toDigits_pos (b := 16) (n := n / 16)
      rw [List.length_append, List.length_singleton, List.length_singleton] at hlength
      omega
    · obtain ⟨hinit, hlast⟩ := List.append_inj' h rfl
      have hdiv := ih (n / 16) (by omega) hinit
      have hmod := digitChar_inj (Nat.mod_lt n (by decide)) (Nat.mod_lt m (by decide)) (List.cons.inj hlast).1
      omega

/-! ## Spellings -/

/-- The characters that are written by a letter after a backslash. -/
def letters : List (Char × Char) :=
  [('\t', 't'), ('\r', 'r'), ('\n', 'n'), ('\'', '\''), ('"', '"'), ('\\', '\\')]

/-- How a character of a literal is written. -/
inductive Spelled (c : Char) : List Char → Prop where
  | letter {x} : (c, x) ∈ letters → Spelled c ['\\', x]
  | self : c ≠ '"' → c ≠ '\\' → Spelled c [c]
  | code : Spelled c ('\\' :: 'u' :: '\x7b' :: (Nat.toDigits 16 c.toNat ++ ['\x7d']))

/-- A character is written in a way in which it may be spelled. -/
lemma spelled_asciiPiece (c : Char) : Spelled c (asciiPiece c).toList := by
  have hletter : ∀ {x : Char} {text : String}, (c, x) ∈ letters → text.toList = ['\\', x] →
      Spelled c text.toList := fun hx htext => htext ▸ .letter hx
  have hchar : c.toString.toList = [c] := by simp
  unfold asciiPiece
  split
  · rename_i h
    exact hletter (h ▸ by decide) rfl
  split
  · rename_i h
    exact hletter (h ▸ by decide) rfl
  split
  · rename_i h
    exact hletter (h ▸ by decide) rfl
  split
  · rename_i h
    refine hletter (x := c) ?_ ?_
    · rcases h with rfl | rfl | rfl <;> decide
    · rw [String.toList_append, hchar]
      rfl
  rename_i h
  split
  · rw [hchar]
    exact .self (fun hc => h (.inr (.inl hc))) (fun hc => h (.inr (.inr hc)))
  · rw [byCode, String.toList_append, String.toList_append, hex]
    simp only [String.toList_ofList]
    exact .code

namespace Spelled

variable {c c' : Char} {p p' r r' : List Char}

/-- What is written tells the character, and where its spelling ends. -/
lemma append_inj (h : Spelled c p) (h' : Spelled c' p') (heq : p ++ r = p' ++ r') : c = c' ∧ r = r' := by
  have hletters : ∀ a ∈ letters, ∀ b ∈ letters, a.2 = b.2 → a.1 = b.1 := by decide
  have hcode : ∀ a ∈ letters, a.2 ≠ 'u' := by decide
  cases h with
  | @letter x hx =>
    cases h' with
    | @letter x' hx' =>
      obtain ⟨rfl, hrest⟩ := List.cons.inj (List.cons.inj heq).2
      exact ⟨hletters _ hx _ hx' rfl, hrest⟩
    | self _ hc => exact absurd (List.cons.inj heq).1.symm hc
    | code => exact absurd (List.cons.inj (List.cons.inj heq).2).1 (hcode _ hx)
  | self hquote hc =>
    cases h' with
    | letter _ => exact absurd (List.cons.inj heq).1 hc
    | self _ _ => exact List.cons.inj heq
    | code => exact absurd (List.cons.inj heq).1 hc
  | code =>
    cases h' with
    | letter hx => exact absurd (List.cons.inj (List.cons.inj heq).2).1.symm (hcode _ hx)
    | self _ hc => exact absurd (List.cons.inj heq).1.symm hc
    | code =>
      have hbrace : ∀ n, ∀ z ∈ Nat.toDigits 16 n, ¬ z = '\x7d' := fun n z hz hbrace => by
        have hmem := mem_hexDigits hz
        rw [hbrace] at hmem
        exact absurd hmem (by decide)
      have hdigits : Nat.toDigits 16 c.toNat ++ ['\x7d'] ++ r = Nat.toDigits 16 c'.toNat ++ ['\x7d'] ++ r' :=
        (List.cons.inj (List.cons.inj (List.cons.inj heq).2).2).2
      rw [List.append_assoc, List.append_assoc] at hdigits
      obtain ⟨hnumber, -, hrest⟩ := append_cons_inj (hbrace _) (hbrace _) rfl rfl hdigits
      exact ⟨Char.toNat_inj.1 (toDigits_inj hnumber), hrest⟩

/-- No spelling is empty or begins with a quote. -/
lemma exists_cons (h : Spelled c p) : ∃ x rest, p = x :: rest ∧ x ≠ '"' := by
  cases h with
  | letter _ => exact ⟨_, _, rfl, by decide⟩
  | self hquote _ => exact ⟨_, _, rfl, hquote⟩
  | code => exact ⟨_, _, rfl, by decide⟩

end Spelled

/-- A text is written character by character. -/
lemma toList_plainAscii (s : String) :
    (plainAscii s).toList = s.toList.flatMap fun c => (asciiPiece c).toList := by
  rw [plainAscii, String.toList_join, List.flatMap_map]

/-- Text between quotes is known from what is written, and so is where it ends. -/
theorem plainAscii_append_inj {s s' : String} {r r' : List Char}
    (h : (plainAscii s).toList ++ '"' :: r = (plainAscii s').toList ++ '"' :: r') : s = s' ∧ r = r' := by
  rw [toList_plainAscii, toList_plainAscii] at h
  rw [← String.toList_inj]
  generalize s.toList = cs at h ⊢
  generalize s'.toList = cs' at h ⊢
  induction cs generalizing cs' with
  | nil =>
    cases cs' with
    | nil => exact ⟨rfl, (List.cons.inj h).2⟩
    | cons c' cs' =>
      obtain ⟨x, rest, hx, hquote⟩ := (spelled_asciiPiece c').exists_cons
      rw [List.flatMap_cons, hx] at h
      exact absurd (List.cons.inj h).1.symm hquote
  | cons c cs ih =>
    cases cs' with
    | nil =>
      obtain ⟨x, rest, hx, hquote⟩ := (spelled_asciiPiece c).exists_cons
      rw [List.flatMap_cons, hx] at h
      exact absurd (List.cons.inj h).1 hquote
    | cons c' cs' =>
      rw [List.flatMap_cons, List.flatMap_cons, List.append_assoc, List.append_assoc] at h
      obtain ⟨rfl, hrest⟩ := (spelled_asciiPiece c).append_inj (spelled_asciiPiece c') h
      obtain ⟨rfl, hr⟩ := ih cs' hrest
      exact ⟨rfl, hr⟩

end Text

/-! ## Scans -/

namespace Scan

/-- Whether reading some text leaves a scan as it was. -/
def Level (mode : Mode) (text : List Char) : Prop := ∀ depth, readAll ⟨depth, mode⟩ text = some ⟨depth, mode⟩

variable {mode : Mode} {a b : List Char} {s : Scan}

/-- A scan reads two texts one after the other. -/
lemma readAll_append : readAll s (a ++ b) = (readAll s a).bind fun s => readAll s b := List.foldlM_append

/-- A scan reads the first character and then the others. -/
lemma readAll_cons {c : Char} : readAll s (c :: a) = (s.read c).bind fun s => readAll s a := List.foldlM_cons

namespace Level

/-- A scan reads over nothing. -/
lemma nil : Level mode [] := fun _ => rfl

/-- A scan reads over two texts if it does over both. -/
lemma append (ha : Level mode a) (hb : Level mode b) : Level mode (a ++ b) := by
  intro depth
  rw [readAll_append, ha depth]
  exact hb depth

/-- Characters outside quotes other than quotes and parentheses change nothing. -/
lemma plain (h : ∀ c ∈ a, c ≠ '"' ∧ c ≠ '(' ∧ c ≠ ')') : Level .plain a := by
  intro depth
  induction a with
  | nil => rfl
  | cons c a ih =>
    obtain ⟨⟨hquote, hopen, hclose⟩, hrest⟩ := List.forall_mem_cons.1 h
    have hread : read ⟨depth, .plain⟩ c = some ⟨depth, .plain⟩ := by
      simp only [read, if_neg hquote, if_neg hopen, if_neg hclose]
    rw [readAll_cons, hread]
    exact ih hrest

/-- Characters between quotes other than quotes and backslashes change nothing. -/
lemma quoted (h : ∀ c ∈ a, c ≠ '"' ∧ c ≠ '\\') : Level .quoted a := by
  intro depth
  induction a with
  | nil => rfl
  | cons c a ih =>
    obtain ⟨⟨hquote, hslash⟩, hrest⟩ := List.forall_mem_cons.1 h
    have hread : read ⟨depth, .quoted⟩ c = some ⟨depth, .quoted⟩ := by
      simp only [read, if_neg hquote, if_neg hslash]
    rw [readAll_cons, hread]
    exact ih hrest

/-- Text between quotes is passed over. -/
lemma between (h : Level .quoted a) : Level .plain ('"' :: (a ++ ['"'])) := by
  intro depth
  have hopen : read ⟨depth, .plain⟩ '"' = some ⟨depth, .quoted⟩ := rfl
  rw [readAll_cons, hopen, Option.bind_some, readAll_append, h depth]
  rfl

/-- What opens and closes between parentheses opens and closes with them. -/
lemma inside (h : Level .plain a) : Level .plain ('(' :: (a ++ [')'])) := by
  intro depth
  have hopen : read ⟨depth, .plain⟩ '(' = some ⟨depth + 1, .plain⟩ := rfl
  rw [readAll_cons, hopen, Option.bind_some, readAll_append, h (depth + 1)]
  rfl

end Level

end Scan

/-- A character between quotes neither ends them nor leaves a backslash open. -/
lemma Text.Spelled.level {c : Char} {p : List Char} (h : Spelled c p) : Scan.Level .quoted p := by
  cases h with
  | letter _ => exact fun _ => rfl
  | self hquote hslash => exact .quoted fun x hx => List.mem_singleton.1 hx ▸ ⟨hquote, hslash⟩
  | code =>
    have hdigits : Scan.Level .quoted (Nat.toDigits 16 c.toNat) := by
      have hquote : '"' ∉ hexDigits := by decide
      have hslash : '\\' ∉ hexDigits := by decide
      refine .quoted fun x hx => ?_
      have hmem := mem_hexDigits hx
      exact ⟨fun h => hquote (h ▸ hmem), fun h => hslash (h ▸ hmem)⟩
    exact Scan.Level.append (a := ['\\', 'u', '\x7b']) (fun _ => rfl) (hdigits.append fun _ => rfl)

/-- Nor does a whole literal. -/
theorem Text.level_plainAscii (s : String) : Scan.Level .quoted (plainAscii s).toList := by
  rw [toList_plainAscii]
  induction s.toList with
  | nil => exact .nil
  | cons c cs ih =>
    rw [List.flatMap_cons]
    exact (spelled_asciiPiece c).level.append ih

end Reparse
