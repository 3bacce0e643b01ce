import Mathlib.Order.Bounds.Basic
import Reparse.Grammar.Index

/-!
# Tables

Names and ids of a grammar belong together. The search for a name gives the first symbol slot and the last
field slot that has it (`firstId?_eq_some_iff`, `lastId?_eq_some_iff`), and so do the maps that are filled
from the tables (`Grammar.exists_index`). The slots are so few that each has an id of its own, which is not
the one of the error symbol (`Grammar.lookups_invert`).
-/

namespace Reparse

/-! ## Ids -/

/-- A number makes the symbol that has it. -/
lemma Symbol.ofNat?_eq_some {n : Nat} {s : Symbol} : ofNat? n = some s ↔ n = s.raw :=
  ⟨fun h => (raw_of_ofNat? h).symm, fun h => h ▸ dif_pos ⟨s.raw_pos, s.raw_le⟩⟩

/-- A number makes the field id that has it. -/
lemma FieldId.ofNat?_eq_some {n : Nat} {f : FieldId} : ofNat? n = some f ↔ n = f.raw :=
  ⟨fun h => (raw_of_ofNat? h).symm, fun h => h ▸ dif_pos ⟨f.raw_pos, f.raw_le⟩⟩

/-! ## Searches by number -/

namespace Grammar

section

variable {α : Type} {p : α → Bool} {k n : Nat} {l : List α}

/-- The numbers of the members that satisfy `p`, where the first member has the number `k`. -/
def numbers (p : α → Bool) (k : Nat) (l : List α) : Set Nat :=
  {n | ∃ i a, l[i]? = some a ∧ p a = true ∧ n = k + i}

/-- In no elements there are no numbers. -/
lemma numbers_nil : numbers p k [] = ∅ := by
  refine Set.eq_empty_iff_forall_notMem.2 ?_
  rintro _ ⟨i, a, ha, -⟩
  cases ha

/-- The numbers of a list are that of the first member, if it is one of them, and later ones. -/
lemma mem_numbers_cons {a : α} : n ∈ numbers p k (a :: l) ↔
    (p a = true ∧ n = k) ∨ n ∈ numbers p (k + 1) l := by
  constructor
  · rintro ⟨i, b, hb, hp, rfl⟩
    cases i with
    | zero =>
      obtain rfl := Option.some.inj hb
      exact .inl ⟨hp, rfl⟩
    | succ i => exact .inr ⟨i, b, hb, hp, by omega⟩
  · rintro (⟨hp, rfl⟩ | ⟨i, b, hb, hp, rfl⟩)
    · exact ⟨0, a, rfl, hp, rfl⟩
    · exact ⟨i + 1, b, hb, hp, by omega⟩

/-- The numbers of elements are those from the first on. -/
lemma le_of_mem_numbers (h : n ∈ numbers p k l) : k ≤ n ∧ n < k + l.length := by
  obtain ⟨i, a, ha, -, rfl⟩ := h
  have := (List.getElem?_eq_some_iff.1 ha).1
  omega

/-- The search from the front finds the least number, if there is one. -/
lemma firstId?_cases (p : α → Bool) (k : Nat) (l : List α) :
    (firstId? p k l = none ∧ numbers p k l = ∅) ∨
      ∃ n, firstId? p k l = some n ∧ IsLeast (numbers p k l) n := by
  induction l generalizing k with
  | nil => exact .inl ⟨rfl, numbers_nil⟩
  | cons a l ih =>
    rw [firstId?]
    by_cases ha : p a = true
    · rw [if_pos ha]
      refine .inr ⟨k, rfl, mem_numbers_cons.2 (.inl ⟨ha, rfl⟩), fun n hn => ?_⟩
      exact (le_of_mem_numbers hn).1
    · have hcons : numbers p k (a :: l) = numbers p (k + 1) l :=
        Set.ext fun n => mem_numbers_cons.trans (or_iff_right fun h => ha h.1)
      rw [if_neg ha, hcons]
      exact ih (k + 1)

/-- The search through all finds the greatest number, if there is one. -/
lemma lastId?_cases (p : α → Bool) (k : Nat) (found : Option Nat) (l : List α) :
    (lastId? p k found l = found ∧ numbers p k l = ∅) ∨
      ∃ n, lastId? p k found l = some n ∧ IsGreatest (numbers p k l) n := by
  induction l generalizing k found with
  | nil => exact .inl ⟨rfl, numbers_nil⟩
  | cons a l ih =>
    rw [lastId?]
    rcases ih (k + 1) (if p a then some k else found) with ⟨heq, hnone⟩ | ⟨n, heq, hgreatest⟩
    · rw [heq]
      by_cases ha : p a = true
      · rw [if_pos ha]
        refine .inr ⟨k, rfl, mem_numbers_cons.2 (.inl ⟨ha, rfl⟩), fun n hn => ?_⟩
        rcases mem_numbers_cons.1 hn with ⟨-, rfl⟩ | hn
        · exact Nat.le_refl _
        · rw [hnone] at hn
          cases hn
      · rw [if_neg ha]
        refine .inl ⟨rfl, Set.eq_empty_iff_forall_notMem.2 fun n hn => ?_⟩
        rcases mem_numbers_cons.1 hn with ⟨hp, -⟩ | hn
        · exact ha hp
        · rw [hnone] at hn
          cases hn
    · refine .inr ⟨n, heq, mem_numbers_cons.2 (.inr hgreatest.1), fun m hm => ?_⟩
      rcases mem_numbers_cons.1 hm with ⟨-, rfl⟩ | hm
      · have := (le_of_mem_numbers hgreatest.1).1
        omega
      · exact hgreatest.2 hm

/-- The first number that is found is the least one. -/
lemma firstId?_eq_some_iff : firstId? p k l = some n ↔ IsLeast (numbers p k l) n := by
  rcases firstId?_cases p k l with ⟨hnone, hempty⟩ | ⟨m, hsome, hleast⟩
  · rw [hnone, hempty]
    exact ⟨nofun, fun h => h.1.elim⟩
  · rw [hsome, Option.some.injEq]
    exact ⟨fun h => h ▸ hleast, hleast.unique⟩

/-- No first number is found exactly if there is none. -/
lemma firstId?_eq_none_iff : firstId? p k l = none ↔ numbers p k l = ∅ := by
  rcases firstId?_cases p k l with ⟨hnone, hempty⟩ | ⟨m, hsome, hleast⟩
  · exact iff_of_true hnone hempty
  · rw [hsome]
    exact ⟨nofun, fun h => ((Set.eq_empty_iff_forall_notMem.1 h m) hleast.1).elim⟩

/-- The last number that is found is the greatest one. -/
lemma lastId?_eq_some_iff : lastId? p k none l = some n ↔ IsGreatest (numbers p k l) n := by
  rcases lastId?_cases p k none l with ⟨hnone, hempty⟩ | ⟨m, hsome, hgreatest⟩
  · rw [hnone, hempty]
    exact ⟨nofun, fun h => h.1.elim⟩
  · rw [hsome, Option.some.injEq]
    exact ⟨fun h => h ▸ hgreatest, hgreatest.unique⟩

/-- No last number is found exactly if there is none. -/
lemma lastId?_eq_none_iff : lastId? p k none l = none ↔ numbers p k l = ∅ := by
  rcases lastId?_cases p k none l with ⟨hnone, hempty⟩ | ⟨m, hsome, hgreatest⟩
  · exact iff_of_true hnone hempty
  · rw [hsome]
    exact ⟨nofun, fun h => ((Set.eq_empty_iff_forall_notMem.1 h m) hgreatest.1).elim⟩

end

/-! ## Maps -/

namespace NameMap

variable {ι : Type} (m : NameMap ι) (name other : String) (id : ι)

/-- A name that is inserted is found with the new id. -/
lemma find?_insert : (m.insert name id).find? other = if other = name then some id else m.find? other := rfl

/-- A name that is inserted keeps the id that it has. -/
lemma find?_insertNew : (m.insertNew name id).find? other =
    (m.find? other).or (if other = name then some id else none) := by
  unfold insertNew
  split
  · rename_i old hold
    split
    · rename_i heq
      rw [heq, hold]
      rfl
    · rw [Option.or_none]
  · rename_i hnone
    rw [find?_insert]
    split
    · rename_i heq
      rw [heq, hnone, Option.none_or]
    · rw [Option.or_none]

end NameMap

/-! ## Indexes -/

/-- A number that is no larger than an id is not changed where it is written as a word. -/
lemma toWord_eq {n : Nat} (h : n ≤ maxId) : toWord n = n := Nat.mod_eq_of_lt (Nat.lt_succ_of_le h)

/-- The kind of symbols that are found by name, as named ones or as the others. -/
def kindFor (named : Bool) : SymbolKind := if named then .regular else .anonymous

/-- Whether a slot is one for a name. -/
def suits (name : String) (named : Bool) (slot : SymbolInfo) : Bool :=
  slot.kind == kindFor named && slot.name == name

/-- A number that was found before counts if there is no later one. -/
lemma lastId?_eq_or {α : Type} (p : α → Bool) (k : Nat) (found : Option Nat) (l : List α) :
    lastId? p k found l = (lastId? p k none l).or found := by
  induction l generalizing k found with
  | nil => rfl
  | cons a l ih =>
    rw [lastId?, lastId?, ih, ih (k + 1) (if p a = true then some k else none), Option.or_assoc]
    split
    · rfl
    · rfl

namespace Index

variable {x : Index} {k : Nat}

/-- Entering a symbol gives its id to its name, if that has none. -/
lemma exists_enterSymbol (x : Index) (slot : SymbolInfo) (hpos : 0 < k) (hk : k ≤ maxId) :
    ∃ x', x.enterSymbol (slot, k) = some x' ∧ x'.fields = x.fields ∧
      ∀ name named, (x'.symbols named).find? name =
        ((x.symbols named).find? name).or (if suits name named slot then Symbol.ofNat? k else none) := by
  have hid : Symbol.ofNat? k = some ⟨k, hpos, hk⟩ := dif_pos ⟨hpos, hk⟩
  obtain ⟨own, kind⟩ := slot
  rw [enterSymbol, toWord_eq hk, hid]
  refine ⟨_, rfl, by cases kind <;> rfl, fun name named => ?_⟩
  cases kind <;> cases named <;>
    simp [suits, kindFor, symbols, NameMap.find?_insertNew, eq_comm (a := name)]

/-- All symbols can be entered, and each name gets the id of the first of them that has it. -/
lemma exists_foldlM_enterSymbol (x : Index) (slots : List SymbolInfo) (hpos : 0 < k)
    (hk : k + slots.length ≤ maxId + 1) :
    ∃ x', (slots.zipIdx k).foldlM enterSymbol x = some x' ∧ x'.fields = x.fields ∧
      ∀ name named, (x'.symbols named).find? name =
        ((x.symbols named).find? name).or ((firstId? (suits name named) k slots).bind Symbol.ofNat?) := by
  induction slots generalizing x k with
  | nil => exact ⟨x, rfl, rfl, fun name named => (Option.or_none).symm⟩
  | cons slot slots ih =>
    rw [List.length_cons] at hk
    obtain ⟨y, hy, hyfields, hynames⟩ := exists_enterSymbol x slot hpos (by omega)
    obtain ⟨z, hz, hzfields, hznames⟩ := @ih (k + 1) y (Nat.succ_pos k) (by omega)
    refine ⟨z, ?_, hzfields.trans hyfields, fun name named => ?_⟩
    · rw [List.zipIdx_cons, List.foldlM_cons, hy]
      exact hz
    · have hid : Symbol.ofNat? k = some ⟨k, hpos, by omega⟩ := dif_pos ⟨hpos, by omega⟩
      rw [hznames, hynames, Option.or_assoc, firstId?]
      split
      · rw [Option.bind_some, hid, Option.some_or]
      · rw [Option.none_or]

/-- All fields can be entered, and each name gets the id of the last of them that has it. -/
lemma exists_foldlM_enterField (x : Index) (slots : List String) (hpos : 0 < k)
    (hk : k + slots.length ≤ maxId + 1) :
    ∃ x', (slots.zipIdx k).foldlM enterField x = some x' ∧
      (∀ named, x'.symbols named = x.symbols named) ∧
      ∀ name, x'.fields.find? name =
        ((lastId? (· == name) k none slots).bind FieldId.ofNat?).or (x.fields.find? name) := by
  induction slots generalizing x k with
  | nil => exact ⟨x, rfl, fun _ => rfl, fun _ => rfl⟩
  | cons slot slots ih =>
    rw [List.length_cons] at hk
    have hid : FieldId.ofNat? k = some ⟨k, hpos, by omega⟩ := dif_pos ⟨hpos, by omega⟩
    obtain ⟨z, hz, hzsymbols, hznames⟩ := @ih (k + 1)
      { x with fields := x.fields.insert slot ⟨k, hpos, by omega⟩ } (Nat.succ_pos k) (by omega)
    refine ⟨z, ?_, hzsymbols, fun name => ?_⟩
    · rw [List.zipIdx_cons, List.foldlM_cons, enterField, toWord_eq (by omega), hid]
      exact hz
    · rw [hznames, NameMap.find?_insert, lastId?,
        lastId?_eq_or _ _ (if (slot == name) = true then some k else none)]
      rcases lastId?_cases (· == name) (k + 1) none slots with ⟨hlast, -⟩ | ⟨n, hlast, hgreatest⟩
      · rw [hlast, Option.bind_none, Option.none_or, Option.none_or]
        by_cases hname : slot = name
        · rw [if_pos hname.symm, if_pos (beq_iff_eq.2 hname), Option.bind_some, hid, Option.some_or]
        · rw [if_neg (Ne.symm hname), if_neg (mt beq_iff_eq.1 hname), Option.bind_none, Option.none_or]
      · -- a later field with the name stays
        obtain ⟨hle, hlt⟩ := le_of_mem_numbers hgreatest.1
        have hn : FieldId.ofNat? n = some ⟨n, by omega, by omega⟩ := dif_pos ⟨by omega, by omega⟩
        rw [hlast, Option.some_or, Option.bind_some, hn, Option.some_or, Option.some_or]

end Index

/-- The index of a grammar's tables gives to each name what the grammar gives to it. -/
theorem exists_index (g : Grammar) : ∃ x, Index.ofTables? g.symbols g.fields = some x ∧
    (∀ name named, (x.symbols named).find? name = g.symbolForName? name named) ∧
    ∀ name, x.fields.find? name = g.fieldForName? name := by
  have hsymbols := g.symbols_lt
  have hfields := g.fields_le
  obtain ⟨x, hx, hxfields, hxnames⟩ := Index.exists_foldlM_enterSymbol .empty g.symbols.tail Nat.one_pos
    (by rw [List.length_tail]; omega)
  obtain ⟨z, hz, hzsymbols, hznames⟩ := Index.exists_foldlM_enterField x.enterError g.fields.tail Nat.one_pos
    (by rw [List.length_tail]; omega)
  refine ⟨z, ?_, fun name named => ?_, fun name => ?_⟩
  · rw [Index.ofTables?, hx]
    exact hz
  · have hempty : (Index.empty.symbols named).find? name = none := by cases named <;> rfl
    have hfound := hxnames name named
    rw [hempty, Option.none_or] at hfound
    rw [hzsymbols, symbolForName?]
    cases named with
    | false => exact hfound
    | true =>
      by_cases hname : name = "ERROR"
      · rw [if_pos (by rw [hname]; rfl)]
        exact if_pos hname
      · rw [if_neg (by simpa using hname)]
        exact (if_neg hname).trans hfound
  · have hempty : x.enterError.fields.find? name = none := by
      show x.fields.find? name = none
      rw [hxfields]
      rfl
    rw [hznames, hempty, Option.or_none]
    rfl

/-! ## Names and ids -/

/-- Whether a symbol slot after the first has a name, as a named symbol or as another one. -/
def Lists (g : Grammar) (name : String) (named : Bool) (n : Nat) : Prop :=
  1 ≤ n ∧ ∃ slot, g.symbols[n]? = some slot ∧ slot.name = name ∧ slot.kind = kindFor named

/-- Whether a field slot after the first has a name. -/
def ListsField (g : Grammar) (name : String) (n : Nat) : Prop := 1 ≤ n ∧ g.fields[n]? = some name

variable {g : Grammar} {name : String} {named : Bool} {s : Symbol} {f : FieldId} {n : Nat}

/-- Past the first the elements are those of the tail. -/
lemma getElem?_eq_tail {α : Type} {l : List α} (h : 1 ≤ n) : l[n]? = l.tail[n - 1]? := by
  rw [List.getElem?_tail, Nat.sub_add_cancel h]

/-- The numbers of symbols that suit a name are those that the grammar lists. -/
lemma numbers_suits (g : Grammar) (name : String) (named : Bool) :
    numbers (suits name named) 1 g.symbols.tail = {n | g.Lists name named n} := by
  ext n
  constructor
  · rintro ⟨i, slot, hslot, hsuits, rfl⟩
    rw [suits, Bool.and_eq_true, beq_iff_eq, beq_iff_eq] at hsuits
    refine ⟨Nat.le_add_right 1 i, slot, ?_, hsuits.2, hsuits.1⟩
    rw [getElem?_eq_tail (Nat.le_add_right 1 i), Nat.add_sub_cancel_left, hslot]
  · rintro ⟨hpos, slot, hslot, hname, hkind⟩
    rw [getElem?_eq_tail hpos] at hslot
    refine ⟨n - 1, slot, hslot, ?_, by omega⟩
    rw [suits, Bool.and_eq_true, beq_iff_eq, beq_iff_eq]
    exact ⟨hkind, hname⟩

/-- The numbers of fields of a name are those that the grammar lists. -/
lemma numbers_fields (g : Grammar) (name : String) :
    numbers (· == name) 1 g.fields.tail = {n | g.ListsField name n} := by
  ext n
  constructor
  · rintro ⟨i, own, hown, hname, rfl⟩
    refine ⟨Nat.le_add_right 1 i, ?_⟩
    rw [getElem?_eq_tail (Nat.le_add_right 1 i), Nat.add_sub_cancel_left, hown, beq_iff_eq.1 hname]
  · rintro ⟨hpos, hname⟩
    rw [getElem?_eq_tail hpos] at hname
    exact ⟨n - 1, name, hname, beq_iff_eq.2 rfl, by omega⟩

/-- A symbol that is listed has a number below that of all symbols. -/
lemma Lists.lt (h : g.Lists name named n) : n < g.symbols.length := by
  obtain ⟨-, slot, hslot, -⟩ := h
  exact (List.getElem?_eq_some_iff.1 hslot).1

/-- The symbol found for a name is in the first slot that lists it. -/
lemma symbolForName?_spec (h : ¬ (named = true ∧ name = "ERROR")) :
    (∀ s, g.symbolForName? name named = some s ↔ IsLeast {n | g.Lists name named n} s.raw) ∧
      (g.symbolForName? name named = none ↔ ∀ n, ¬ g.Lists name named n) := by
  have hsearch : g.symbolForName? name named =
      (firstId? (suits name named) 1 g.symbols.tail).bind Symbol.ofNat? := by
    rw [symbolForName?, if_neg (by simpa using h)]
    rfl
  have hsome : ∀ s, g.symbolForName? name named = some s ↔
      IsLeast {n | g.Lists name named n} s.raw := by
    intro s
    rw [hsearch, ← numbers_suits, ← firstId?_eq_some_iff, Option.bind_eq_some_iff]
    simp only [Symbol.ofNat?_eq_some, exists_eq_right]
  have hempty : numbers (suits name named) 1 g.symbols.tail = ∅ ↔ ∀ n, ¬ g.Lists name named n := by
    rw [numbers_suits]
    exact Set.eq_empty_iff_forall_notMem
  refine ⟨hsome, ?_⟩
  rw [← hempty, ← firstId?_eq_none_iff, hsearch]
  cases hfirst : firstId? (suits name named) 1 g.symbols.tail with
  | none => exact iff_of_true rfl rfl
  | some n =>
    have hlists : g.Lists name named n := by
      have hleast := firstId?_eq_some_iff.1 hfirst
      rw [numbers_suits] at hleast
      exact hleast.1
    have hid : Symbol.ofNat? n = some ⟨n, hlists.1, Nat.le_of_lt (Nat.lt_trans hlists.lt g.symbols_lt)⟩ :=
      Symbol.ofNat?_eq_some.2 rfl
    rw [Option.bind_some, hid]
    exact iff_of_false nofun nofun

/-- The field found for a name is in the last slot that lists it. -/
lemma fieldForName?_spec (g : Grammar) (name : String) :
    (∀ f, g.fieldForName? name = some f ↔ IsGreatest {n | g.ListsField name n} f.raw) ∧
      (g.fieldForName? name = none ↔ ∀ n, ¬ g.ListsField name n) := by
  have hempty : numbers (· == name) 1 g.fields.tail = ∅ ↔ ∀ n, ¬ g.ListsField name n := by
    rw [numbers_fields]
    exact Set.eq_empty_iff_forall_notMem
  constructor
  · intro f
    rw [fieldForName?, ← numbers_fields, ← lastId?_eq_some_iff, Option.bind_eq_some_iff]
    simp only [FieldId.ofNat?_eq_some, exists_eq_right]
  rw [← hempty, ← lastId?_eq_none_iff, fieldForName?]
  cases hlast : lastId? (· == name) 1 none g.fields.tail with
  | none => exact iff_of_true rfl rfl
  | some n =>
    have hlists : g.ListsField name n := by
      have hgreatest := lastId?_eq_some_iff.1 hlast
      rw [numbers_fields] at hgreatest
      exact hgreatest.1
    have hlt := (List.getElem?_eq_some_iff.1 hlists.2).1
    have hid : FieldId.ofNat? n = some ⟨n, hlists.1, Nat.le_of_lt (Nat.lt_of_lt_of_le hlt g.fields_le)⟩ :=
      FieldId.ofNat?_eq_some.2 rfl
    rw [Option.bind_some, hid]
    exact iff_of_false nofun nofun

/-- The name of errors has the symbol of errors. -/
lemma symbolForName?_error (g : Grammar) : g.symbolForName? "ERROR" true = some .error := rfl

/-- The symbol found for a name has that name, and is named if it was asked to be. -/
lemma symbolName?_of_symbolForName? (h : g.symbolForName? name named = some s) :
    g.symbolName? s = some name ∧ g.isNamed s = named := by
  by_cases herror : named = true ∧ name = "ERROR"
  · obtain ⟨rfl, rfl⟩ := herror
    obtain rfl := Option.some.inj h
    exact ⟨rfl, rfl⟩
  · obtain ⟨-, slot, hslot, hname, hkind⟩ := (((symbolForName?_spec herror).1 s).1 h).1
    -- the slot is below the limit, and so the symbol is not the error symbol
    have hne : s ≠ .error := by
      rintro rfl
      have hlt := (List.getElem?_eq_some_iff.1 hslot).1
      exact absurd (Nat.lt_trans hlt g.symbols_lt) (Nat.lt_irrefl _)
    have hinfo : g.info? s = some slot := (if_neg hne).trans hslot
    rw [symbolName?, isNamed, symbolKind?, hinfo, Option.map_some, Option.map_some, hname, hkind]
    cases named <;> exact ⟨rfl, rfl⟩

/-- In every grammar, names and ids belong together. The tables can be made into maps, which give to each
name what the grammar gives to it: no number of a slot is cut off where it is written as a 16-bit word, and
no symbol slot has the id of the error symbol. That symbol is found for its name, as a named one. For any
other name and kind the first symbol slot after the reserved one is found that has both, and for a field
name the last slot, if there are any; and what is found has the name, and the kind, again. -/
theorem lookups_invert (g : Grammar) :
    (∃ x, Index.ofTables? g.symbols g.fields = some x ∧
      (∀ name named, (x.symbols named).find? name = g.symbolForName? name named) ∧
      ∀ name, x.fields.find? name = g.fieldForName? name) ∧
    (∀ n < g.symbols.length, toWord n = n ∧ n ≠ Symbol.error.raw) ∧
    (∀ n < g.fields.length, toWord n = n) ∧
    g.symbolForName? "ERROR" true = some .error ∧
    (∀ name named, ¬ (named = true ∧ name = "ERROR") →
      (∀ s, g.symbolForName? name named = some s ↔ IsLeast {n | g.Lists name named n} s.raw) ∧
      (g.symbolForName? name named = none ↔ ∀ n, ¬ g.Lists name named n)) ∧
    (∀ name named s, g.symbolForName? name named = some s →
      g.symbolName? s = some name ∧ g.isNamed s = named) ∧
    ∀ name, (∀ f, g.fieldForName? name = some f → g.fieldName? f = some name) ∧
      (∀ f, g.fieldForName? name = some f ↔ IsGreatest {n | g.ListsField name n} f.raw) ∧
      (g.fieldForName? name = none ↔ ∀ n, ¬ g.ListsField name n) := by
  have hsymbols := g.symbols_lt
  have hfields := g.fields_le
  refine ⟨g.exists_index, fun n hn => ⟨toWord_eq (by omega), ?_⟩, fun n hn => toWord_eq (by omega),
    g.symbolForName?_error, fun name named h => symbolForName?_spec h,
    fun name named s => symbolName?_of_symbolForName?,
    fun name => ⟨fun f hf => ?_, fieldForName?_spec g name⟩⟩
  · exact Nat.ne_of_lt (Nat.lt_trans hn hsymbols)
  · exact (((fieldForName?_spec g name).1 f).1 hf).1.2

/-- Of a name that two symbols and two fields have, the first symbol and the last field are found. -/
theorem lookups_invert_twice :
    ∃ (g : Grammar) (s : Symbol) (f : FieldId), ¬ (true = true ∧ "word" = "ERROR") ∧
      g.symbols.map (·.name) = ["end", ";", "word", "word"] ∧ g.fields = ["", "word", "word"] ∧
      g.symbolForName? "word" true = some s ∧ IsLeast {n | g.Lists "word" true n} 2 ∧
      g.symbolName? s = some "word" ∧ g.isNamed s = true ∧
      g.fieldForName? "word" = some f ∧ IsGreatest {n | g.ListsField "word" n} 2 ∧
      g.fieldName? f = some "word" := by
  let g : Grammar := ⟨0, "words", 14,
    [⟨"end", .auxiliary⟩, ⟨";", .anonymous⟩, ⟨"word", .regular⟩, ⟨"word", .regular⟩],
    ["", "word", "word"], by decide, by decide⟩
  have hs : g.symbolForName? "word" true = some ⟨2, by decide, by decide⟩ := by decide
  have hf : g.fieldForName? "word" = some ⟨2, by decide, by decide⟩ := by decide
  have hother : ¬ (true = true ∧ "word" = "ERROR") := by decide
  obtain ⟨-, -, -, -, hsymbol, hname, hfield⟩ := lookups_invert g
  obtain ⟨hfieldName, hgreatest, -⟩ := hfield "word"
  exact ⟨g, _, _, hother, rfl, rfl, hs, ((hsymbol "word" true hother).1 _).1 hs, (hname _ _ _ hs).1,
    (hname _ _ _ hs).2, hf, (hgreatest _).1 hf, hfieldName _ hf⟩

end Grammar

end Reparse
