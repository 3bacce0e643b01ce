import Reparse.Proofs.Runs

/-!
# Bounds of readers

The numbers by which loops and recursions of readers are bounded do not matter as long as there are
no fewer of them than tokens: for lists (`elements_eq`), for declarators (`moreDeclarators_eq`) and
for expressions, which take at most three levels for a token (`expressionWithin_eq`).
-/

namespace Reparse.C

open Item

/-! ## Lists -/

/-- Whether a reader of elements loses no token and takes one for an element. -/
structure Consumes (element : List Token → Reading × Bool) : Prop where
  keeps : ∀ ts, (element ts).1.Keeps ts
  shorter : ∀ ts, (element ts).2 = true → (element ts).1.2.length < ts.length

section

variable {first : List Terminal} {element element' : List Token → Reading × Bool}

/-- After comments and a token fewer tokens are left. -/
lemma length_comments_cons_le {ts rest : List Token} {before : List Item} {t : Token}
    (h : comments ts = (before, t :: rest)) : rest.length < ts.length := by
  have hle := length_comments_le ts
  rw [h] at hle
  exact hle

/-- A list depends on how elements are read of its own tokens. -/
lemma elements_congr (hk : ∀ us, (element us).1.Keeps us) (count : Nat) {ts : List Token}
    (h : ∀ us, us.length ≤ ts.length → element us = element' us) :
    elements first element count ts = elements first element' count ts := by
  induction count generalizing ts with
  | zero => rfl
  | succ count ih =>
    rw [elements, elements]
    cases hc : comments ts with
    | mk before pending =>
      cases pending with
      | nil => rfl
      | cons t rest =>
        have hlt := length_comments_cons_le hc
        have hle := (hk (t :: rest)).length_le
        rw [List.length_cons] at hle
        rw [h (t :: rest) hlt] at hle
        have hrest : ∀ us, us.length ≤ ts.length →
            elements first element count us = elements first element' count us :=
          fun us hus => ih fun vs hvs => h vs (Nat.le_trans hvs hus)
        simp only [hrest rest (Nat.le_of_lt hlt), h (t :: rest) hlt]
        generalize element' (t :: rest) = read at hle ⊢
        obtain ⟨⟨items, rest'⟩, isElement⟩ := read
        dsimp only at hle ⊢
        cases hc' : comments rest' with
        | mk after pending' =>
          cases pending' with
          | nil => rfl
          | cons u rest'' =>
            have hlt' := length_comments_cons_le hc'
            simp only [hrest rest'' (by omega),
              hrest (u :: rest'') (by rw [List.length_cons]; omega)]

/-- A list takes no more rounds than tokens. -/
lemma elements_eq (h : Consumes element) {count count' : Nat} {ts : List Token}
    (hc : ts.length < count) (hc' : ts.length < count') :
    elements first element count ts = elements first element count' ts := by
  induction count generalizing count' ts with
  | zero => omega
  | succ count ih =>
    obtain ⟨count', rfl⟩ : ∃ k, count' = k + 1 := ⟨count' - 1, by omega⟩
    rw [elements, elements]
    cases hcs : comments ts with
    | mk before pending =>
      cases pending with
      | nil => rfl
      | cons t rest =>
        have hlt := length_comments_cons_le hcs
        have hshort := h.shorter (t :: rest)
        have hrest : ∀ us, us.length < ts.length →
            elements first element count us = elements first element count' us :=
          fun us hus => ih (by omega) (by omega)
        simp only [hrest rest hlt]
        generalize element (t :: rest) = read at hshort ⊢
        obtain ⟨⟨items, rest'⟩, isElement⟩ := read
        cases isElement with
        | false => rfl
        | true =>
          have hshort := hshort rfl
          dsimp only [List.length_cons] at hshort ⊢
          cases hcs' : comments rest' with
          | mk after pending' =>
            cases pending' with
            | nil => rfl
            | cons u rest'' =>
              have hlt' := length_comments_cons_le hcs'
              simp only [hrest rest'' (by omega),
                hrest (u :: rest'') (by rw [List.length_cons]; omega)]

/-- To take a token adds none. -/
lemma length_take_le (field : Option Field) (ts : List Token) :
    (take field ts).2.length ≤ ts.length := (keeps_take field ts).length_le

/-- Of the reader of elements a list in parentheses depends only on what it does with the tokens inside. -/
lemma parenthesized_congr (hk : ∀ us, (element us).1.Keeps us) {ts : List Token}
    (h : ∀ us, us.length ≤ (take none ts).2.length → element us = element' us) :
    parenthesized first element ts = parenthesized first element' ts := by
  simp only [parenthesized]
  rw [elements_congr hk _ h]

end

/-- A list in parentheses takes no more rounds than tokens. -/
lemma parenthesized_eq {first : List Terminal} {element : List Token → Reading × Bool}
    (h : Consumes element) {room : Nat} {ts : List Token} (hr : (take none ts).2.length < room) :
    parenthesized first element ts =
      (let (opening, ts) := take none ts
      let (items, ts) := elements first element room ts
      let (closing, ts) := expect .rightParen none ts
      (opening ++ items ++ closing, ts)) := by
  simp only [parenthesized]
  rw [elements_eq h (Nat.lt_succ_self _) hr]

/-! ## Expressions -/

/-- An operand that was read has taken a token. -/
lemma length_primaryWithin_lt {depth : Nat} {ts : List Token}
    (h : (primaryWithin depth ts).operand.isSome = true) :
    (primaryWithin depth ts).rest.length < ts.length := by
  cases depth with
  | zero => cases h
  | succ depth =>
    rw [primaryWithin] at h ⊢
    cases hc : comments ts with
    | mk before pending =>
      rw [hc] at h
      cases pending with
      | nil => cases h
      | cons t rest =>
        have hlt := length_comments_cons_le hc
        suffices hle : ∀ r : OperandReading, r.rest.length ≤ rest.length → r.rest.length < ts.length by
          dsimp only at h ⊢
          split
          · -- a name, or a call if a list in parentheses follows
            split
            · have hk := keeps_parenthesized expressionFirst
                (fun ts => ((expressionWithin depth ts).items, (expressionWithin depth ts).operand.isSome))
                (keeps_within depth).1 (comments rest).2
              exact hle _ (Nat.le_trans hk.length_le (length_comments_le rest))
            · exact hlt
          · exact hlt
          · have hk := (keeps_takeIf .stringContent none rest).length_le
            exact hle _ (Nat.le_trans (keeps_expect .quote none _).length_le hk)
          · have hk := ((keeps_within depth).1 rest).orMissing none
            exact hle _ (Nat.le_trans (keeps_expect .rightParen none _).length_le hk.length_le)
          · rename_i h₁ h₂ h₃ h₄
            split at h <;> contradiction
        intro r hr
        omega

/-- An operand takes a token. -/
lemma length_binaryWithin_lt {depth power : Nat} {ts : List Token}
    (h : (binaryWithin depth power ts).operand.isSome = true) :
    (binaryWithin depth power ts).rest.length < ts.length := by
  cases depth with
  | zero => cases h
  | succ depth =>
    refine Nat.lt_of_le_of_lt (length_binaryWithin_le depth power ts) (length_primaryWithin_lt ?_)
    rw [binaryWithin] at h
    generalize primaryWithin depth ts = r at h ⊢
    obtain ⟨before, _ | left, rest⟩ := r
    · exact h
    · rfl

/-- An expression takes a token. -/
lemma length_expressionWithin_lt {depth : Nat} {ts : List Token}
    (h : (expressionWithin depth ts).operand.isSome = true) :
    (expressionWithin depth ts).rest.length < ts.length := by
  cases depth with
  | zero => cases h
  | succ depth =>
    refine Nat.lt_of_le_of_lt (length_expressionWithin_le depth ts) (length_binaryWithin_lt ?_)
    rw [expressionWithin] at h
    generalize binaryWithin depth 0 ts = r at h ⊢
    obtain ⟨before, _ | left, rest⟩ := r
    · exact h
    · rfl

/-- The reader of expressions takes a token for each, at any depth. -/
lemma consumes_expressionWithin (depth : Nat) :
    Consumes fun ts => ((expressionWithin depth ts).items, (expressionWithin depth ts).operand.isSome)
    where
  keeps ts := (keeps_within depth).1 ts
  shorter _ h := length_expressionWithin_lt h

/-- Where a token comes next, taking it leaves less. -/
lemma length_take_lt_of_ahead {ts : List Token} {k : Terminal} (field : Option Field)
    (h : ahead? ts = some k) : (take field ts).2.length < ts.length := by
  obtain ⟨ks, hks⟩ := List.head?_eq_some_iff.1 ((ahead?_eq ts).symm.trans h)
  exact length_take_lt field hks

/-- A level more than three for each token changes nothing. -/
lemma within_succ (depth : Nat) :
    (∀ ts, 3 * ts.length + 3 ≤ depth → expressionWithin (depth + 1) ts = expressionWithin depth ts) ∧
    (∀ power ts, 3 * ts.length + 2 ≤ depth →
      binaryWithin (depth + 1) power ts = binaryWithin depth power ts) ∧
    (∀ power left ts, 3 * ts.length + 1 ≤ depth →
      joinWithin (depth + 1) power left ts = joinWithin depth power left ts) ∧
    (∀ ts, 3 * ts.length + 1 ≤ depth → primaryWithin (depth + 1) ts = primaryWithin depth ts) := by
  induction depth with
  | zero =>
    refine ⟨fun ts h => ?_, fun power ts h => ?_, fun power left ts h => ?_, fun ts h => ?_⟩ <;> omega
  | succ depth ih =>
    obtain ⟨expr, bin, join, prim⟩ := ih
    refine ⟨fun ts h => ?_, fun power ts h => ?_, fun power left ts h => ?_, fun ts h => ?_⟩
    · -- an expression: what follows an assignment sign has lost a token
      rw [expressionWithin, bin 0 ts (by omega), expressionWithin]
      have hle := length_rest_le ((keeps_within depth).2.1 0 ts)
      generalize binaryWithin depth 0 ts = r at hle ⊢
      obtain ⟨before, _ | left, rest⟩ := r
      · rfl
      · dsimp only at hle ⊢
        split
        · rename_i ha
          have hlt := length_take_lt_of_ahead (some .operator) ha
          rw [expr _ (by omega)]
        · rfl
    · rw [binaryWithin, prim ts (by omega), binaryWithin]
      have hle := length_rest_le ((keeps_within depth).2.2.2 ts)
      generalize primaryWithin depth ts = r at hle ⊢
      obtain ⟨before, _ | left, rest⟩ := r
      · rfl
      · dsimp only at hle ⊢
        rw [join power left rest (by omega)]
    · -- operands: what follows an operator has lost a token
      rw [joinWithin, joinWithin]
      cases ha : ahead? ts with
      | none => rfl
      | some k =>
        have hlt := length_take_lt_of_ahead (some .operator) ha
        rw [Option.bind_some]
        cases bindingPower? k with
        | none => rfl
        | some p =>
          dsimp only
          rw [bin (p + 1) _ (by omega)]
          split
          · have hle := ((keeps_within depth).2.1 (p + 1) (take (some .operator) ts).2).orMissing
              (some .right)
            exact join power _ _ (by have := hle.length_le; omega)
          · rfl
    · -- what stands in parentheses has lost at least one of them
      rw [primaryWithin, primaryWithin]
      cases hc : comments ts with
      | mk before pending =>
        cases pending with
        | nil => rfl
        | cons t rest =>
          have hlt := length_comments_cons_le hc
          have hcall : parenthesized expressionFirst (fun ts =>
              ((expressionWithin (depth + 1) ts).items, (expressionWithin (depth + 1) ts).operand.isSome))
                (comments rest).2 =
              parenthesized expressionFirst (fun ts =>
                ((expressionWithin depth ts).items, (expressionWithin depth ts).operand.isSome))
                (comments rest).2 := by
            refine parenthesized_congr (consumes_expressionWithin (depth + 1)).keeps fun us hus => ?_
            have hle := Nat.le_trans (length_take_le none (comments rest).2) (length_comments_le rest)
            rw [expr us (by omega)]
          dsimp only at hcall ⊢
          rw [hcall, expr rest (by omega)]

/-- An expression takes no more than three levels for each token. -/
lemma expressionWithin_eq {depth : Nat} {ts : List Token} (h : 3 * ts.length + 3 ≤ depth) :
    expressionWithin depth ts = expression ts := by
  have hadd : ∀ n, expressionWithin (3 * ts.length + 3 + n) ts = expressionWithin (3 * ts.length + 3) ts := by
    intro n
    induction n with
    | zero => rfl
    | succ n ih => rw [← Nat.add_assoc, (within_succ _).1 ts (Nat.le_add_right ..), ih]
  have hbound : 3 * ts.length + 3 ≤ depthBound ts.length := by
    rw [depthBound]
    omega
  obtain ⟨n, rfl⟩ := Nat.exists_eq_add_of_le h
  obtain ⟨m, hm⟩ := Nat.exists_eq_add_of_le hbound
  rw [expression, hm, hadd, hadd]

/-! ## Declarations -/

/-- The reader of parameters takes a token for each. -/
lemma consumes_parameter : Consumes parameter where
  keeps := keeps_parameter
  shorter ts h := by
    cases ha : ahead? ts with
    | none => simp [parameter, ha] at h
    | some kind =>
      by_cases hf : kind ∈ parameterFirst
      · rw [parameter_of_mem ha hf]
        show (takeIf .identifier (some .declarator) (expect .primitiveType (some .type) ts).2).2.length < _
        have hle := (keeps_takeIf .identifier (some .declarator)
          (expect .primitiveType (some .type) ts).2).length_le
        by_cases hk : kind = .primitiveType
        · rw [hk] at ha
          have hlt := length_take_lt_of_ahead (some .type) ha
          rw [expect, if_pos ha] at hle ⊢
          omega
        · -- the type is missing, so the name is there
          have hkind : kind = .identifier := by
            simpa [parameterFirst, hk] using hf
          have hmissing : (expect .primitiveType (some .type) ts).2 = (comments ts).2 := by
            rw [expect, if_neg (by rw [ha]; simpa using hk)]
          have hname : ahead? (comments ts).2 = some .identifier := by
            rw [ahead?_comments, ha, hkind]
          rw [hmissing, takeIf, if_pos hname]
          exact Nat.lt_of_lt_of_le (length_take_lt_of_ahead _ hname) (length_comments_le ts)
      · simp [parameter, ha, hf] at h

/-- Declarators take no more rounds than tokens. -/
lemma moreDeclarators_eq {count count' : Nat} {ts : List Token} (h : ts.length ≤ count)
    (h' : ts.length ≤ count') : moreDeclarators count ts = moreDeclarators count' ts := by
  have hnil : ∀ n, moreDeclarators n [] = ([], []) := by
    intro n
    cases n <;> rfl
  induction count generalizing count' ts with
  | zero => rw [List.eq_nil_of_length_eq_zero (Nat.le_zero.1 h), hnil, hnil]
  | succ count ih =>
    cases count' with
    | zero => rw [List.eq_nil_of_length_eq_zero (Nat.le_zero.1 h'), hnil, hnil]
    | succ count' =>
      rw [moreDeclarators, moreDeclarators]
      split
      · rename_i ha
        have hlt := length_take_lt_of_ahead none ha
        have hle := (keeps_declarator (take none ts).2).length_le
        have hmore : ∀ us, us.length < ts.length →
            moreDeclarators count us = moreDeclarators count' us := fun us hus => ih (by omega) (by omega)
        simp only [hmore _ (Nat.lt_of_le_of_lt hle hlt)]
      · rfl

end Reparse.C
