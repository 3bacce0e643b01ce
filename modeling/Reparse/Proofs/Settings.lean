import Mathlib.Tactic.Lemma
import Reparse.Parser.Assignments
import Reparse.Proofs.Handover
import Reparse.Proofs.IncludedRanges

/-!
# Settings that are refused

A parser refuses a language of a version that it does not know, and ranges that are not in order
(`Parser.settings_exact`). The fields are assigned one after the other; since all checks come first, what
is refused leaves the parser as it was, and each later request is answered as if it had not been made.
-/

namespace Reparse.Parser

variable {σ κ : Type} [DecidableEq κ] {fingerprint : Document → List Span → κ} {p q : Parser σ}
  {l : Language σ} {ranges : List Span} {e : ParseError} {i : Nat}

/-! ## Ranges in order -/

/-- Whether range number `i` is inverted or starts before the end of the one before it. -/
def Misplaced (ranges : List Span) (i : Nat) : Prop :=
  ∃ s, ranges[i]? = some s ∧
    (s.stop.bytes < s.start.bytes ∨
      ∃ j r, i = j + 1 ∧ ranges[j]? = some r ∧ s.start.bytes < r.stop.bytes)

/-- Whether range number `i` is the first that is misplaced. -/
def FirstMisplaced (ranges : List Span) (i : Nat) : Prop :=
  Misplaced ranges i ∧ ∀ j < i, ¬ Misplaced ranges j

/-- Ranges are in order if and only if none of them is misplaced. -/
lemma inOrder_iff : Span.InOrder ranges ↔ ∀ i, ¬ Misplaced ranges i := by
  constructor
  · rintro ⟨hle, hapart⟩ i ⟨s, hs, hlt | ⟨j, r, rfl, hr, hlt⟩⟩
    · exact absurd (hle s (List.mem_of_getElem? hs)) (Nat.not_le_of_lt hlt)
    · obtain ⟨hj, rfl⟩ := List.getElem?_eq_some_iff.1 hr
      obtain ⟨hj', rfl⟩ := List.getElem?_eq_some_iff.1 hs
      exact absurd (List.pairwise_iff_getElem.1 hapart j (j + 1) hj hj' (Nat.lt_succ_self j))
        (Nat.not_le_of_lt hlt)
  · intro h
    have hle : ∀ r ∈ ranges, r.start.bytes ≤ r.stop.bytes := fun r hr => Nat.le_of_not_lt fun hlt => by
      obtain ⟨i, hi⟩ := List.getElem?_of_mem hr
      exact h i ⟨r, hi, .inl hlt⟩
    have hnext : ∀ j (hj : j < ranges.length) (hj' : j + 1 < ranges.length),
        ranges[j].stop.bytes ≤ ranges[j + 1].start.bytes := fun j hj hj' => by
      refine Nat.le_of_not_lt fun hlt => h (j + 1) ?_
      exact ⟨_, List.getElem?_eq_getElem hj', .inr ⟨j, _, rfl, List.getElem?_eq_getElem hj, hlt⟩⟩
    refine ⟨hle, List.pairwise_iff_getElem.2 fun i j hi hj hij => ?_⟩
    -- from one range to the next, and through each of them from its start to its stop
    induction j, hij using Nat.le_induction with
    | base => exact hnext i hi hj
    | succ j _ ih =>
      have hj' : j < ranges.length := Nat.lt_of_succ_lt hj
      exact Nat.le_trans (ih hj') (Nat.le_trans (hle _ (List.getElem_mem hj')) (hnext j hj' hj))

/-- Ranges of which one is misplaced are not in order. -/
lemma FirstMisplaced.not_inOrder (h : FirstMisplaced ranges i) : ¬ Span.InOrder ranges :=
  fun ho => inOrder_iff.1 ho i h.1

/-- Only one range is misplaced first. -/
lemma FirstMisplaced.unique {j : Nat} (h : FirstMisplaced ranges i) (h' : FirstMisplaced ranges j) :
    i = j := by
  obtain hlt | heq | hlt := Nat.lt_trichotomy i j
  · exact absurd h.1 (h'.2 i hlt)
  · exact heq
  · exact absurd h'.1 (h.2 j hlt)

/-- The end of the last of some ranges, 0 if there is none. -/
def lastEnd (ranges : List Span) : Nat := (ranges.getLast?.map (·.stop.bytes)).getD 0

/-- A range is misplaced if it starts before the end of those before it or stops before it starts. -/
lemma misplaced_length {done rest : List Span} {r : Span} :
    Misplaced (done ++ r :: rest) done.length ↔
      r.start.bytes < lastEnd done ∨ r.stop.bytes < r.start.bytes := by
  have hr : (done ++ r :: rest)[done.length]? = some r := by
    rw [List.getElem?_append_right (Nat.le_refl _), Nat.sub_self]
    rfl
  constructor
  · rintro ⟨s, hs, hlt | ⟨j, q, hj, hq, hlt⟩⟩
    · obtain rfl := Option.some.inj (hr.symm.trans hs)
      exact .inr hlt
    · obtain rfl := Option.some.inj (hr.symm.trans hs)
      rw [List.getElem?_append_left (by omega)] at hq
      rw [lastEnd, List.getLast?_eq_getElem?, hj, Nat.add_sub_cancel, hq]
      exact .inl hlt
  · rintro (hlt | hlt)
    · cases hlast : done.getLast? with
      | none =>
        rw [lastEnd, hlast] at hlt
        cases hlt
      | some q =>
        have hne : done ≠ [] := fun h => by
          rw [h] at hlast
          cases hlast
        have hpos := List.length_pos_iff.2 hne
        rw [lastEnd, hlast] at hlt
        rw [List.getLast?_eq_getElem?] at hlast
        refine ⟨r, hr, .inr ⟨done.length - 1, q, by omega, ?_, hlt⟩⟩
        rw [List.getElem?_append_left (by omega)]
        exact hlast
    · exact ⟨r, hr, .inl hlt⟩

/-- The running search, where the ranges before have been found to be in place. -/
lemma firstInvalid?_append {done rest : List Span}
    (hdone : ∀ j < done.length, ¬ Misplaced (done ++ rest) j) :
    (firstInvalid? (lastEnd done) done.length rest = none ∧ Span.InOrder (done ++ rest)) ∨
      ∃ i, firstInvalid? (lastEnd done) done.length rest = some i ∧ FirstMisplaced (done ++ rest) i := by
  induction rest generalizing done with
  | nil =>
    rw [List.append_nil] at hdone ⊢
    refine .inl ⟨rfl, inOrder_iff.2 fun i hi => ?_⟩
    obtain ⟨s, hs, -⟩ := id hi
    exact hdone i (List.getElem?_eq_some_iff.1 hs).1 hi
  | cons r rest ih =>
    rw [firstInvalid?]
    by_cases hr : r.start.bytes < lastEnd done ∨ r.stop.bytes < r.start.bytes
    · exact .inr ⟨done.length, if_pos hr, misplaced_length.2 hr, hdone⟩
    · rw [if_neg hr]
      have hend : lastEnd (done ++ [r]) = r.stop.bytes := by
        rw [lastEnd, List.getLast?_concat]
        rfl
      have hrest : done ++ [r] ++ rest = done ++ r :: rest := List.append_assoc ..
      have h := @ih (done ++ [r]) fun j hj hmis => by
        rw [hrest] at hmis
        rw [List.length_append, List.length_singleton] at hj
        rcases Nat.lt_succ_iff_lt_or_eq.1 hj with hlt | rfl
        · exact hdone j hlt hmis
        · exact hr (misplaced_length.1 hmis)
      rwa [hend, hrest, List.length_append] at h

/-- The search finds the first range that is misplaced, and nothing if the ranges are in order. -/
lemma firstInvalid?_cases (ranges : List Span) :
    (firstInvalid? 0 0 ranges = none ∧ Span.InOrder ranges) ∨
      ∃ i, firstInvalid? 0 0 ranges = some i ∧ FirstMisplaced ranges i :=
  @firstInvalid?_append [] ranges nofun

/-! ## Single assignments -/

/-- What is left of a setting: the new parser, or the error and the parser as it was. -/
def settle (p : Parser σ) : Except ParseError (Parser σ) → EStateM.Result ParseError (Parser σ) Unit
  | .ok q => .ok () q
  | .error e => .error e p

/-- A language is assigned as a whole. -/
theorem run_assignLanguage (p : Parser σ) (l : Language σ) :
    (assignLanguage l).run p = p.settle (p.setLanguage l) := by
  rw [setLanguage, assignLanguage]
  cases haccepts : accepts l.version with
  | false => rfl
  | true =>
    simp only [↓reduceIte, EStateM.run_bind, EStateM.run_get]
    cases p.language.any (·.grammar == l.grammar) <;> rfl

/-- The check of ranges fails with the first that is invalid. -/
lemma run_checkRanges (previous index : Nat) (ranges : List Span) (p : Parser σ) :
    (checkRanges previous index ranges).run p = match firstInvalid? previous index ranges with
      | some i => .error (.invalidRanges i) p
      | none => .ok () p := by
  induction ranges generalizing previous index with
  | nil => rfl
  | cons r rest ih =>
    rw [checkRanges, firstInvalid?]
    split
    · rfl
    · exact ih r.stop.bytes (index + 1)

/-- Ranges are assigned as a whole. -/
theorem run_assignIncludedRanges (p : Parser σ) (ranges : List Span) :
    (assignIncludedRanges ranges).run p = p.settle (p.setIncludedRanges ranges) := by
  have hcheck := run_checkRanges 0 0 ranges p
  rw [setIncludedRanges, assignIncludedRanges, EStateM.run_bind, hcheck]
  cases firstInvalid? 0 0 ranges <;> rfl

/-- All settings are assigned to a new parser, or none. -/
theorem assigned_assignOptions (l : Language σ) (timeout : Nat) (ranges : List Span) (flag : Option Nat) :
    assigned (assignOptions l timeout ranges flag) = withOptions l timeout ranges flag := by
  have hranges := fun q : Parser σ => run_assignIncludedRanges q ranges
  rw [assigned, assignOptions, withOptions, EStateM.run_bind, run_assignLanguage]
  cases new.setLanguage l with
  | error e => rfl
  | ok q =>
    simp only [settle, EStateM.run_bind, hranges]
    cases hq : q.setIncludedRanges ranges with
    | error e => simp only [hq, bind, Except.bind]
    | ok q' =>
      simp only [hq, bind, Except.bind]
      rfl

/-- Whether a language is of a version that parsers know. -/
def Known (l : Language σ) : Prop := l.version = 13 ∨ l.version = 14

/-- A version is accepted exactly if it is known. -/
lemma accepts_iff : accepts l.version = true ↔ Known l := by
  rw [accepts, Bool.and_eq_true, decide_eq_true_eq, decide_eq_true_eq, Known, oldestVersion, newestVersion]
  omega

/-- A language is set if its version is known, and is refused otherwise. -/
lemma setLanguage_cases (p : Parser σ) (l : Language σ) :
    (Known l ∧ p.setLanguage l = .ok { p with
      language := some l
      suspended := if p.language.any (·.grammar == l.grammar) then p.suspended else none }) ∨
    (¬ Known l ∧ p.setLanguage l = .error (.versionMismatch l.version)) := by
  rw [setLanguage, ← accepts_iff]
  by_cases h : accepts l.version = true
  · exact .inl ⟨h, if_pos h⟩
  · exact .inr ⟨h, if_neg h⟩

/-- Ranges are set if they are in order, and are refused otherwise. -/
lemma setIncludedRanges_cases (p : Parser σ) (ranges : List Span) :
    (Span.InOrder ranges ∧
      p.setIncludedRanges ranges = .ok { p with includedRanges := Source.effectiveRanges ranges }) ∨
    ∃ i, FirstMisplaced ranges i ∧ p.setIncludedRanges ranges = .error (.invalidRanges i) := by
  rw [setIncludedRanges]
  rcases firstInvalid?_cases ranges with ⟨hnone, hordered⟩ | ⟨i, hsome, hfirst⟩
  · rw [hnone]
    exact .inl ⟨hordered, rfl⟩
  · rw [hsome]
    exact .inr ⟨i, hfirst, rfl⟩

/-- The assignment of ranges succeeds exactly if they are in order, and sets them. -/
lemma run_assignIncludedRanges_ok_iff : (assignIncludedRanges ranges).run p = .ok () q ↔
    Span.InOrder ranges ∧ q = { p with includedRanges := Source.effectiveRanges ranges } := by
  rw [run_assignIncludedRanges]
  rcases setIncludedRanges_cases p ranges with ⟨hordered, hok⟩ | ⟨i, hfirst, herror⟩
  · rw [hok, settle, EStateM.Result.ok.injEq]
    exact ⟨fun h => ⟨hordered, h.2.symm⟩, fun h => ⟨rfl, h.2.symm⟩⟩
  · rw [herror]
    exact ⟨nofun, fun h => absurd h.1 hfirst.not_inOrder⟩

/-- The assignment of ranges fails exactly with the first that is misplaced, and changes nothing. -/
lemma run_assignIncludedRanges_error_iff : (assignIncludedRanges ranges).run p = .error e q ↔
    q = p ∧ ∃ i, FirstMisplaced ranges i ∧ e = .invalidRanges i := by
  rw [run_assignIncludedRanges]
  rcases setIncludedRanges_cases p ranges with ⟨hordered, hok⟩ | ⟨i, hfirst, herror⟩
  · rw [hok]
    exact ⟨nofun, fun ⟨_, _, hfirst, _⟩ => absurd hordered hfirst.not_inOrder⟩
  · rw [herror, settle, EStateM.Result.error.injEq]
    constructor
    · rintro ⟨rfl, rfl⟩
      exact ⟨rfl, i, hfirst, rfl⟩
    · rintro ⟨rfl, j, hj, rfl⟩
      exact ⟨congrArg _ (hfirst.unique hj), rfl⟩

/-- The assignment of a language succeeds exactly if its version is known, and sets it. -/
lemma run_assignLanguage_ok_iff : (assignLanguage l).run p = .ok () q ↔
    Known l ∧ q = { p with
      language := some l
      suspended := if p.language.any (·.grammar == l.grammar) then p.suspended else none } := by
  rw [run_assignLanguage]
  rcases setLanguage_cases p l with ⟨hknown, hok⟩ | ⟨hknown, herror⟩
  · rw [hok, settle, EStateM.Result.ok.injEq]
    exact ⟨fun h => ⟨hknown, h.2.symm⟩, fun h => ⟨rfl, h.2.symm⟩⟩
  · rw [herror]
    exact ⟨nofun, fun h => absurd h.1 hknown⟩

/-- The assignment of a language fails exactly if its version is not known, and changes nothing. -/
lemma run_assignLanguage_error_iff : (assignLanguage l).run p = .error e q ↔
    q = p ∧ ¬ Known l ∧ e = .versionMismatch l.version := by
  rw [run_assignLanguage]
  rcases setLanguage_cases p l with ⟨hknown, hok⟩ | ⟨hknown, herror⟩
  · rw [hok]
    exact ⟨nofun, fun h => absurd hknown h.2.1⟩
  · rw [herror, settle, EStateM.Result.error.injEq]
    exact ⟨fun h => ⟨h.2.symm, hknown, h.1.symm⟩, fun h => ⟨h.2.2.symm, h.1.symm⟩⟩

/-- A parser is made with all settings if both checks pass, and otherwise the first that fails tells why. -/
lemma withOptions_cases (l : Language σ) (timeout : Nat) (ranges : List Span) (flag : Option Nat) :
    (Known l ∧ Span.InOrder ranges ∧ withOptions l timeout ranges flag =
      .ok ⟨some l, Source.effectiveRanges ranges, timeout, flag, none⟩) ∨
    (¬ Known l ∧ withOptions l timeout ranges flag = .error (.versionMismatch l.version)) ∨
    ∃ i, Known l ∧ FirstMisplaced ranges i ∧
      withOptions l timeout ranges flag = .error (.invalidRanges i) := by
  rw [withOptions]
  rcases setLanguage_cases new l with ⟨hknown, hok⟩ | ⟨hknown, herror⟩
  · rw [hok]
    let rest (q : Parser σ) : Except ParseError (Parser σ) := pure ((q.setTimeout timeout).setFlag flag)
    rcases setIncludedRanges_cases { (new : Parser σ) with language := some l } ranges with
      ⟨hordered, hranges⟩ | ⟨i, hfirst, hranges⟩
    · exact .inl ⟨hknown, hordered, congrArg (· >>= rest) hranges⟩
    · exact .inr (.inr ⟨i, hknown, hfirst, congrArg (· >>= rest) hranges⟩)
  · rw [herror]
    exact .inr (.inl ⟨hknown, rfl⟩)

/-- The assignment of all options succeeds exactly if language and ranges do, and sets all of them. -/
lemma assigned_ok_iff {timeout : Nat} {flag : Option Nat} :
    assigned (assignOptions l timeout ranges flag) = .ok q ↔
      Known l ∧ Span.InOrder ranges ∧ q = ⟨some l, Source.effectiveRanges ranges, timeout, flag, none⟩ := by
  rw [assigned_assignOptions]
  rcases withOptions_cases l timeout ranges flag with
    ⟨hknown, hordered, h⟩ | ⟨hknown, h⟩ | ⟨i, -, hfirst, h⟩
  · rw [h, Except.ok.injEq]
    exact ⟨fun hq => ⟨hknown, hordered, hq.symm⟩, fun hq => hq.2.2.symm⟩
  · rw [h]
    exact ⟨nofun, fun hq => absurd hq.1 hknown⟩
  · rw [h]
    exact ⟨nofun, fun hq => absurd hq.2.1 hfirst.not_inOrder⟩

/-- The assignment of all options fails with the language if that fails, and with the ranges otherwise. -/
lemma assigned_error_iff {timeout : Nat} {flag : Option Nat} :
    assigned (assignOptions l timeout ranges flag) = .error e ↔
      (¬ Known l ∧ e = .versionMismatch l.version) ∨
        (Known l ∧ ∃ i, FirstMisplaced ranges i ∧ e = .invalidRanges i) := by
  rw [assigned_assignOptions]
  rcases withOptions_cases l timeout ranges flag with
    ⟨hknown, hordered, h⟩ | ⟨hknown, h⟩ | ⟨i, hknown, hfirst, h⟩
  · rw [h]
    refine ⟨nofun, ?_⟩
    rintro (⟨hno, -⟩ | ⟨-, i, hfirst, -⟩)
    · exact absurd hknown hno
    · exact absurd hordered hfirst.not_inOrder
  · rw [h, Except.error.injEq]
    exact ⟨fun he => .inl ⟨hknown, he.symm⟩, fun he => he.elim (·.2.symm) fun he => absurd he.1 hknown⟩
  · rw [h, Except.error.injEq]
    constructor
    · exact fun he => .inr ⟨hknown, i, hfirst, he.symm⟩
    · rintro (⟨hno, -⟩ | ⟨-, j, hj, rfl⟩)
      · exact absurd hknown hno
      · rw [hfirst.unique hj]

/-! ## Later requests -/

/-- What a request is answered. -/
inductive Reply where
  | done
  | refused (e : ParseError)
  | parsed (result : Except Failure Tree)

/-- The answer to a request that assigns to the fields of a parser, and the parser that it leaves. -/
def Reply.ofAssignment : EStateM.Result ParseError (Parser σ) Unit → Reply × Parser σ
  | .ok () q => (.done, q)
  | .error e q => (.refused e, q)

/-- What a request is answered, and the parser that it leaves. -/
def answer (fingerprint : Document → List Span → κ) (p : Parser σ) : Request σ → Reply × Parser σ
  | .setLanguage l => Reply.ofAssignment ((assignLanguage l).run p)
  | .setIncludedRanges ranges => Reply.ofAssignment ((assignIncludedRanges ranges).run p)
  | .setTimeout timeout => (.done, p.setTimeout timeout)
  | .setFlag flag => (.done, p.setFlag flag)
  | .reset => (.done, p.reset)
  | .parse outside generation d oldTree =>
    (p.parseBy fingerprint outside generation d oldTree).map .parsed id

/-- What requests are answered that are made one after the other. -/
def replies (fingerprint : Document → List Span → κ) (p : Parser σ) : List (Request σ) → List Reply
  | [] => []
  | r :: rest => (p.answer fingerprint r).1 :: (p.answer fingerprint r).2.replies fingerprint rest

/-- The answer of a setting and the parser that it leaves. -/
lemma Reply.ofAssignment_settle (p : Parser σ) (result : Except ParseError (Parser σ)) :
    Reply.ofAssignment (p.settle result) =
      (match result with
        | .ok _ => .done
        | .error e => .refused e, result.toOption.getD p) := by
  cases result <;> rfl

/-- A request leaves the same parser, whichever way its fields are assigned. -/
theorem answer_snd (p : Parser σ) (r : Request σ) :
    (p.answer fingerprint r).2 = serve fingerprint p r := by
  cases r with
  | setLanguage l => rw [answer, run_assignLanguage, Reply.ofAssignment_settle, serve]
  | setIncludedRanges ranges => rw [answer, run_assignIncludedRanges, Reply.ofAssignment_settle, serve]
  | setTimeout timeout => rfl
  | setFlag flag => rfl
  | reset => rfl
  | parse outside generation d oldTree => rfl

/-- What is refused leaves the parser as it was. -/
theorem answer_of_refused {r : Request σ} (h : (p.answer fingerprint r).1 = .refused e) :
    (p.answer fingerprint r).2 = p := by
  have hsettle : ∀ result : Except ParseError (Parser σ),
      (Reply.ofAssignment (p.settle result)).1 = .refused e →
        (Reply.ofAssignment (p.settle result)).2 = p := by
    intro result hresult
    cases result with
    | ok q => cases hresult
    | error e' => rfl
  cases r with
  | setLanguage l =>
    rw [answer, run_assignLanguage] at h ⊢
    exact hsettle _ h
  | setIncludedRanges ranges =>
    rw [answer, run_assignIncludedRanges] at h ⊢
    exact hsettle _ h
  | setTimeout timeout => cases h
  | setFlag flag => cases h
  | reset => cases h
  | parse outside generation d oldTree => cases h

/-- Settings are checked exactly, and are made as a whole or not at all. Ranges are accepted if and only if
none is inverted and each ends where the next starts or before that; otherwise the error tells the first
that is inverted or starts before the end of the one before it. A language is accepted if and only if it is
of version 13 or 14, and only a change of the grammar drops the progress of a halted call. All settings
together make a parser if and only if both checks pass, the language being checked first. What is refused
leaves the parser as it was, and whatever is asked for later is answered as if it had not been made. -/
theorem settings_exact (fingerprint : Document → List Span → κ) (p : Parser σ) (l : Language σ)
    (timeout : Nat) (ranges : List Span) (flag : Option Nat) :
    (∀ q, (assignIncludedRanges ranges).run p = .ok () q ↔
      Span.InOrder ranges ∧
        q = { p with includedRanges := if ranges.isEmpty then [.document] else ranges }) ∧
    (∀ e q, (assignIncludedRanges ranges).run p = .error e q ↔
      q = p ∧ ∃ i, FirstMisplaced ranges i ∧ e = .invalidRanges i) ∧
    (∀ q, (assignLanguage l).run p = .ok () q ↔
      (l.version = 13 ∨ l.version = 14) ∧
        q = { p with
          language := some l
          suspended := if p.language.any (·.grammar == l.grammar) then p.suspended else none }) ∧
    (∀ e q, (assignLanguage l).run p = .error e q ↔
      q = p ∧ ¬ (l.version = 13 ∨ l.version = 14) ∧ e = .versionMismatch l.version) ∧
    (∀ q, assigned (assignOptions l timeout ranges flag) = .ok q ↔
      (l.version = 13 ∨ l.version = 14) ∧ Span.InOrder ranges ∧
        q = ⟨some l, if ranges.isEmpty then [.document] else ranges, timeout, flag, none⟩) ∧
    (∀ e, assigned (assignOptions l timeout ranges flag) = .error e ↔
      (¬ (l.version = 13 ∨ l.version = 14) ∧ e = .versionMismatch l.version) ∨
      ((l.version = 13 ∨ l.version = 14) ∧ ∃ i, FirstMisplaced ranges i ∧ e = .invalidRanges i)) ∧
    ∀ r e later, (p.answer fingerprint r).1 = .refused e →
      p.replies fingerprint (r :: later) = .refused e :: p.replies fingerprint later := by
  refine ⟨fun q => run_assignIncludedRanges_ok_iff, fun e q => run_assignIncludedRanges_error_iff,
    fun q => run_assignLanguage_ok_iff, fun e q => run_assignLanguage_error_iff,
    fun q => assigned_ok_iff, fun e => assigned_error_iff, fun r e later h => ?_⟩
  rw [replies, h, answer_of_refused h]

end Reparse.Parser
