import Mathlib.Data.List.InsertIdx
import Reparse.Parser.Fingerprint

/-!
# Whose progress a call goes on with

A parser is asked one thing after the other: settings, resets and calls. The calls that reach an
engine are counted by their place among the requests (`callAt`). The progress of a halted call
stays with the parser until the next call, unless a request drops it (`Pending`), and goes to that
call if it is for the same grammar and an input of the same fingerprint (`Succeeds`).
`suspended_iff` is the invariant of a history: what a parser holds is what its last call left.

The main statement is `handed_iff`: it says what the engine of any call is given.
-/

namespace Reparse.Parser

/-- What a parser is asked for. -/
inductive Request (σ : Type) where
  | setLanguage (l : Language σ)
  | setIncludedRanges (ranges : List Span)
  | setTimeout (timeout : Nat)
  | setFlag (flag : Option Nat)
  | reset
  | parse (outside : Outside) (generation : Nat) (d : Document) (oldTree : Option Tree)

/-- A call that reached an engine: what it was for, what the engine was given, and what it
answered. -/
structure Call (σ : Type) where
  language : Language σ
  document : Document
  ranges : List Span
  oldTree : Option Tree
  task : Task σ
  outcome : Outcome σ

variable {σ κ : Type} [DecidableEq κ] {fingerprint : Document → List Span → κ}
  {requests : List (Request σ)}

/-- The parser that a request leaves. A setting that is refused leaves it as it is. -/
def serve (fingerprint : Document → List Span → κ) (p : Parser σ) : Request σ → Parser σ
  | .setLanguage l => (p.setLanguage l).toOption.getD p
  | .setIncludedRanges ranges => (p.setIncludedRanges ranges).toOption.getD p
  | .setTimeout timeout => p.setTimeout timeout
  | .setFlag flag => p.setFlag flag
  | .reset => p.reset
  | .parse outside generation d oldTree => (p.parseBy fingerprint outside generation d oldTree).2

/-- The call that a request makes of an engine, if it reaches one. -/
def call? (fingerprint : Document → List Span → κ) (p : Parser σ) : Request σ → Option (Call σ)
  | .parse outside generation d oldTree => p.language.map fun l =>
    let task := p.taskBy fingerprint outside l d oldTree
    ⟨l, d, p.includedRanges, oldTree, task,
      (l.engine generation (p.probes outside) task (.start p.timeout)).1⟩
  | _ => none

/-- A new parser after the first `i` requests. -/
def after (fingerprint : Document → List Span → κ) (requests : List (Request σ)) (i : Nat) :
    Parser σ :=
  (requests.take i).foldl (serve fingerprint) .new

/-- The call that request `i` makes of an engine. -/
def callAt (fingerprint : Document → List Span → κ) (requests : List (Request σ)) (i : Nat) :
    Option (Call σ) :=
  requests[i]?.bind (call? fingerprint (after fingerprint requests i))

namespace Request

/-- Whether a request drops the progress of a call for grammar `g`: a reset does, and so does a
language of another grammar that is accepted. -/
def Drops (g : Grammar) : Request σ → Prop
  | .reset => True
  | .setLanguage l => accepts l.version = true ∧ l.grammar ≠ g
  | _ => False

/-- Whether a request has no say in what an engine is given: it sets the timeout or the flag, or
is refused. -/
def Idle (p : Parser σ) : Request σ → Prop
  | .setLanguage l => ∃ e, p.setLanguage l = .error e
  | .setIncludedRanges ranges => ∃ e, p.setIncludedRanges ranges = .error e
  | .setTimeout _ | .setFlag _ => True
  | _ => False

end Request

/-- Whether a call leaves this progress: it was halted with it, for this grammar and input. -/
def Call.Leaves (c : Call σ) (s : Suspended σ) : Prop :=
  c.outcome = .halted s.progress ∧ s.grammar = c.language.grammar ∧ s.document = c.document ∧
    s.ranges = c.ranges

/-- The last call before request `i` is `c`, at place `j`, and no request since then drops its
progress. -/
structure Pending (fingerprint : Document → List Span → κ) (requests : List (Request σ)) (j : Nat)
    (c : Call σ) (i : Nat) : Prop where
  before : j < i
  called : callAt fingerprint requests j = some c
  last : ∀ k, j < k → k < i → callAt fingerprint requests k = none
  kept : ∀ k r, j < k → k < i → requests[k]? = some r → ¬ r.Drops c.language.grammar

/-- Call `c` is the last one before call `c'`, which is for the same grammar and an input of the
same fingerprint, and no request between them drops its progress. -/
structure Succeeds (fingerprint : Document → List Span → κ) (requests : List (Request σ)) (j : Nat)
    (c : Call σ) (i : Nat) (c' : Call σ) : Prop where
  pending : Pending fingerprint requests j c i
  called : callAt fingerprint requests i = some c'
  grammar : c.language.grammar = c'.language.grammar
  input : fingerprint c.document c.ranges = fingerprint c'.document c'.ranges

/-! ## Single requests -/

variable {p q : Parser σ} {r : Request σ} {c c' : Call σ}

/-- Whether the progress that a parser holds is for the grammar that it is set to. -/
def Tuned (p : Parser σ) : Prop :=
  ∀ s ∈ p.suspended, ∃ l, p.language = some l ∧ l.grammar = s.grammar

/-- A language of a known version is set, and what was halted is given up. -/
lemma serve_setLanguage {l : Language σ} (h : accepts l.version = true) :
    serve fingerprint p (.setLanguage l) = { p with
      language := some l
      suspended := if p.language.any (·.grammar == l.grammar) then p.suspended else none } := by
  rw [serve, setLanguage, if_pos h]
  rfl

/-- A language of another version changes nothing. -/
lemma serve_of_refused {l : Language σ} (h : accepts l.version ≠ true) :
    serve fingerprint p (.setLanguage l) = p := by
  rw [serve, setLanguage, if_neg h]
  rfl

/-- The setting of ranges leaves the language and what was halted. -/
lemma serve_setIncludedRanges {ranges : List Span} :
    (serve fingerprint p (.setIncludedRanges ranges)).language = p.language ∧
      (serve fingerprint p (.setIncludedRanges ranges)).suspended = p.suspended := by
  rw [serve, setIncludedRanges]
  split <;> exact ⟨rfl, rfl⟩

/-- A parse that calls no engine changes nothing. -/
lemma serve_parse_of_no_call {outside : Outside} {generation : Nat} {d : Document}
    {oldTree : Option Tree}
    (h : call? fingerprint p (.parse outside generation d oldTree) = none) :
    serve fingerprint p (.parse outside generation d oldTree) = p := by
  rw [serve, parseBy, Option.map_eq_none_iff.1 h]

/-- A call is for the language and the ranges that the parser is set to, and the parser goes by
what its engine made of the task. -/
lemma exists_of_call (h : call? fingerprint p r = some c) :
    p.language = some c.language ∧ c.ranges = p.includedRanges ∧
      (∃ outside, c.task = p.taskBy fingerprint outside c.language c.document c.oldTree) ∧
      ∃ interrupt, serve fingerprint p r =
        (p.conclude c.language c.document (c.outcome, interrupt)).2 := by
  cases r with
  | parse outside generation d oldTree =>
    obtain ⟨l, hl, rfl⟩ := Option.map_eq_some_iff.1 h
    exact ⟨hl, rfl, ⟨outside, rfl⟩, _, by rw [serve, parseBy, hl]⟩
  | _ => cases h

/-- After a call a parser holds what the call leaves, and nothing else. -/
lemma suspended_serve_of_call (h : call? fingerprint p r = some c) (s : Suspended σ) :
    (serve fingerprint p r).suspended = some s ↔ c.Leaves s := by
  obtain ⟨-, hranges, -, interrupt, hserve⟩ := exists_of_call h
  obtain ⟨grammar, document, ranges, progress⟩ := s
  rw [hserve, Call.Leaves, hranges]
  cases c.outcome with
  | halted => simp [conclude, eq_comm, and_comm, and_left_comm]
  | _ => simp [conclude, reset]

/-- A call leaves the language of a parser. -/
lemma language_serve_of_call (h : call? fingerprint p r = some c) :
    (serve fingerprint p r).language = p.language := by
  obtain ⟨-, -, -, interrupt, hserve⟩ := exists_of_call h
  rw [hserve]
  cases c.outcome <;> rfl

/-- Without a call, only a language that is accepted changes the language of a parser. -/
lemma language_serve_of_no_call (h : call? fingerprint p r = none) :
    (serve fingerprint p r).language = p.language ∨
      ∃ l, r = .setLanguage l ∧ accepts l.version = true ∧
        (serve fingerprint p r).language = some l := by
  cases r with
  | setLanguage l =>
    by_cases ha : accepts l.version = true
    · exact .inr ⟨l, rfl, ha, by rw [serve_setLanguage ha]⟩
    · exact .inl (by rw [serve_of_refused ha])
  | setIncludedRanges ranges => exact .inl serve_setIncludedRanges.1
  | parse => exact .inl (by rw [serve_parse_of_no_call h])
  | _ => exact .inl rfl

/-- A request that makes no call leaves the progress of a parser, unless it drops it. -/
lemma suspended_serve_of_no_call (hp : p.Tuned) (h : call? fingerprint p r = none)
    (s : Suspended σ) :
    (serve fingerprint p r).suspended = some s ↔
      p.suspended = some s ∧ ¬ r.Drops s.grammar := by
  cases r with
  | setLanguage l =>
    by_cases ha : accepts l.version = true
    · rw [serve_setLanguage ha]
      dsimp only
      constructor
      · intro hs
        split at hs
        · rename_i hany
          obtain ⟨l₀, hl₀, hg⟩ := hp s hs
          refine ⟨hs, fun hd => hd.2 ?_⟩
          rw [hl₀, Option.any_some, beq_iff_eq] at hany
          rw [← hany, hg]
        · cases hs
      · rintro ⟨hs, hd⟩
        obtain ⟨l₀, hl₀, hg⟩ := hp s hs
        have hsame : l.grammar = s.grammar := not_not.1 fun hne => hd ⟨ha, hne⟩
        rw [if_pos (by rw [hl₀, Option.any_some, hg, hsame, beq_self_eq_true]), hs]
    · rw [serve_of_refused ha]
      exact ⟨fun hs => ⟨hs, fun hd => ha hd.1⟩, fun hs => hs.1⟩
  | setIncludedRanges ranges =>
    rw [serve_setIncludedRanges.2]
    exact ⟨fun hs => ⟨hs, id⟩, fun hs => hs.1⟩
  | reset => exact ⟨fun hs => (by cases hs), fun hs => (hs.2 trivial).elim⟩
  | parse =>
    rw [serve_parse_of_no_call h]
    exact ⟨fun hs => ⟨hs, id⟩, fun hs => hs.1⟩
  | _ => exact ⟨fun hs => ⟨hs, id⟩, fun hs => hs.1⟩

/-- A parser stays tuned. -/
lemma Tuned.serve (hp : p.Tuned) : (p.serve fingerprint r).Tuned := by
  intro s hs
  cases hc : call? fingerprint p r with
  | some c =>
    obtain ⟨hl, -⟩ := exists_of_call hc
    obtain ⟨-, hg, -⟩ := (suspended_serve_of_call hc s).1 hs
    exact ⟨c.language, (language_serve_of_call hc).trans hl, hg.symm⟩
  | none =>
    obtain ⟨hs, hd⟩ := (suspended_serve_of_no_call hp hc s).1 hs
    obtain hl | ⟨l, rfl, ha, hl⟩ := language_serve_of_no_call hc
    · rw [hl]
      exact hp s hs
    · exact ⟨l, hl, not_not.1 fun hne => hd ⟨ha, hne⟩⟩

/-! ## Histories -/

variable {i j k : Nat}

/-- After one more request a parser has served it. -/
lemma after_succ (hr : requests[i]? = some r) :
    after fingerprint requests (i + 1) = serve fingerprint (after fingerprint requests i) r := by
  rw [after, List.take_add_one, hr, Option.toList_some, List.foldl_append, after, List.foldl_cons,
    List.foldl_nil]

/-- After the last request nothing changes any more. -/
lemma after_succ_of_none (hr : requests[i]? = none) :
    after fingerprint requests (i + 1) = after fingerprint requests i := by
  rw [after, List.take_add_one, hr, Option.toList_none, List.append_nil, after]

/-- What a parser has halted belongs to its language. -/
lemma tuned_after : ∀ i, (after fingerprint requests i).Tuned
  | 0 => fun s hs => by cases hs
  | i + 1 => by
    cases hr : requests[i]? with
    | none => rw [after_succ_of_none hr]; exact tuned_after i
    | some r => rw [after_succ hr]; exact (tuned_after i).serve

/-- What is pending after one more request: its own call, or else what was pending before it. -/
lemma pending_succ : Pending fingerprint requests j c (i + 1) ↔
    (j = i ∧ callAt fingerprint requests i = some c) ∨
      (Pending fingerprint requests j c i ∧ callAt fingerprint requests i = none ∧
        ∀ r, requests[i]? = some r → ¬ r.Drops c.language.grammar) := by
  constructor
  · intro h
    obtain rfl | hlt := Nat.eq_or_lt_of_le (Nat.le_of_lt_succ h.before)
    · exact .inl ⟨rfl, h.called⟩
    · exact .inr ⟨⟨hlt, h.called, fun k hj hk => h.last k hj (Nat.lt_succ_of_lt hk),
        fun k r hj hk => h.kept k r hj (Nat.lt_succ_of_lt hk)⟩, h.last i hlt (Nat.lt_succ_self i),
        fun r => h.kept i r hlt (Nat.lt_succ_self i)⟩
  · rintro (⟨rfl, hc⟩ | ⟨h, hnone, hkept⟩)
    · exact ⟨Nat.lt_succ_self j, hc, fun k hj hk => by omega, fun k r hj hk => by omega⟩
    · refine ⟨Nat.lt_succ_of_lt h.before, h.called, fun k hj hk => ?_, fun k r hj hk => ?_⟩
      · obtain rfl | hlt := Nat.eq_or_lt_of_le (Nat.le_of_lt_succ hk)
        · exact hnone
        · exact h.last k hj hlt
      · obtain rfl | hlt := Nat.eq_or_lt_of_le (Nat.le_of_lt_succ hk)
        · exact hkept r
        · exact h.kept k r hj hlt

/-- What a parser holds is what the pending call left. -/
theorem suspended_iff (i : Nat) (s : Suspended σ) :
    (after fingerprint requests i).suspended = some s ↔
      ∃ j c, Pending fingerprint requests j c i ∧ c.Leaves s := by
  induction i with
  | zero => exact ⟨fun h => (by cases h), fun ⟨_, _, h, _⟩ => absurd h.before (Nat.not_lt_zero _)⟩
  | succ i ih =>
    simp only [pending_succ]
    cases hr : requests[i]? with
    | none =>
      have hnone : callAt fingerprint requests i = none := by rw [callAt, hr, Option.bind_none]
      simp [after_succ_of_none hr, ih, hnone]
    | some r =>
      have hat : callAt fingerprint requests i =
          call? fingerprint (after fingerprint requests i) r := by rw [callAt, hr, Option.bind_some]
      rw [after_succ hr, hat]
      cases hc : call? fingerprint (after fingerprint requests i) r with
      | some c => simp [suspended_serve_of_call hc]
      | none =>
        rw [suspended_serve_of_no_call (tuned_after i) hc, ih]
        constructor
        · rintro ⟨⟨j, c, hp, hs⟩, hd⟩
          exact ⟨j, c, .inr ⟨hp, rfl, fun _ h => by
            cases h; rw [← hs.2.1]; exact hd⟩, hs⟩
        · rintro ⟨j, c, ⟨-, h⟩ | ⟨hp, -, hd⟩, hs⟩
          · cases h
          · exact ⟨⟨j, c, hp, hs⟩, by rw [hs.2.1]; exact hd r rfl⟩

/-! ## Requests that have no say -/

/-- Whether two parsers differ in their clocks and flags alone. -/
def Alike (p q : Parser σ) : Prop :=
  p.language = q.language ∧ p.includedRanges = q.includedRanges ∧ p.suspended = q.suspended

/-- An idle request leaves all but the clock and the flag. -/
lemma Request.Idle.alike (h : r.Idle p) : Alike (serve fingerprint p r) p := by
  cases r with
  | setLanguage l =>
    obtain ⟨e, he⟩ := h
    rw [serve, he]
    exact ⟨rfl, rfl, rfl⟩
  | setIncludedRanges ranges =>
    obtain ⟨e, he⟩ := h
    rw [serve, he]
    exact ⟨rfl, rfl, rfl⟩
  | setTimeout timeout => exact ⟨rfl, rfl, rfl⟩
  | setFlag flag => exact ⟨rfl, rfl, rfl⟩
  | reset => exact h.elim
  | parse => exact h.elim

/-- Parsers that are alike stay so as long as there is no call. -/
lemma Alike.serve (h : Alike p q) (hc : call? fingerprint p r = none) :
    Alike (p.serve fingerprint r) (q.serve fingerprint r) := by
  obtain ⟨hl, hr, hs⟩ := h
  cases r with
  | setLanguage l =>
    by_cases ha : accepts l.version = true
    · rw [serve_setLanguage ha, serve_setLanguage ha]
      exact ⟨rfl, hr, by rw [hl, hs]⟩
    · rw [serve_of_refused ha, serve_of_refused ha]
      exact ⟨hl, hr, hs⟩
  | setIncludedRanges ranges =>
    rw [Parser.serve, Parser.serve, setIncludedRanges, setIncludedRanges]
    split
    · exact ⟨hl, hr, hs⟩
    · exact ⟨hl, rfl, hs⟩
  | setTimeout timeout => exact ⟨hl, hr, hs⟩
  | setFlag flag => exact ⟨hl, hr, hs⟩
  | reset => exact ⟨hl, hr, rfl⟩
  | parse outside generation d oldTree =>
    have hc' : call? fingerprint q (.parse outside generation d oldTree) = none :=
      Option.map_eq_none_iff.2 (hl ▸ Option.map_eq_none_iff.1 hc)
    rw [serve_parse_of_no_call hc, serve_parse_of_no_call hc']
    exact ⟨hl, hr, hs⟩

/-- Parsers that are alike give their engines the same task. -/
lemma Alike.call (h : Alike p q) (hc : call? fingerprint p r = some c) :
    ∃ c', call? fingerprint q r = some c' ∧ c'.task = c.task := by
  obtain ⟨hl, hr, hs⟩ := h
  cases r with
  | parse outside generation d oldTree =>
    obtain ⟨l, hp, rfl⟩ := Option.map_eq_some_iff.1 hc
    refine ⟨_, Option.map_eq_some_iff.2 ⟨l, hl ▸ hp, rfl⟩, ?_⟩
    dsimp only [taskBy]
    congr 1
    · rw [hr]
    · congr 1; funext t; rw [admits, admits, hr]
    · rw [hs]; congr 2; funext s; rw [continuesBy, continuesBy, hr]
  | _ => cases hc

/-- Without an idle request a parser is as it would be with it, up to the next call. -/
lemma alike_eraseIdx (hr : requests[k]? = some r)
    (hidle : r.Idle (after fingerprint requests k)) (n : Nat)
    (hnone : ∀ m, k < m → m < k + 1 + n → callAt fingerprint requests m = none) :
    Alike (after fingerprint requests (k + 1 + n))
      (after fingerprint (requests.eraseIdx k) (k + n)) := by
  induction n with
  | zero =>
    have htake : after fingerprint (requests.eraseIdx k) k = after fingerprint requests k := by
      rw [after, List.take_eraseIdx_eq_take_of_le _ _ _ (Nat.le_refl k), after]
    rw [Nat.add_zero (k + 1), Nat.add_zero k, after_succ hr, htake]
    exact hidle.alike
  | succ n ih =>
    have halike := ih fun m hk hm => hnone m hk (by omega)
    have hsame : (requests.eraseIdx k)[k + n]? = requests[k + 1 + n]? := by
      rw [List.getElem?_eraseIdx_of_ge (by omega), Nat.add_right_comm]
    rw [← Nat.add_assoc, ← Nat.add_assoc]
    cases hs : requests[k + 1 + n]? with
    | none => rwa [after_succ_of_none hs, after_succ_of_none (hsame.trans hs)]
    | some s =>
      have hcall := hnone (k + 1 + n) (by omega) (by omega)
      rw [callAt, hs, Option.bind_some] at hcall
      rw [after_succ hs, after_succ (hsame.trans hs)]
      exact halike.serve hcall

/-! ## What an engine is given -/

/-- The progress that an engine is given is that of the call before it, if it is for the same. -/
lemma progress_iff (hc : callAt fingerprint requests i = some c') (progress : σ) :
    c'.task.progress = some progress ↔
      ∃ j c, Succeeds fingerprint requests j c i c' ∧ c.outcome = .halted progress := by
  obtain ⟨r, hr, hcall⟩ := Option.bind_eq_some_iff.1 hc
  obtain ⟨-, hranges, ⟨outside, htask⟩, -⟩ := exists_of_call hcall
  rw [htask, taskBy, Option.map_eq_some_iff]
  simp only [Option.filter_eq_some_iff, continuesBy, Bool.and_eq_true, beq_iff_eq, ← hranges]
  constructor
  · rintro ⟨s, ⟨hs, hg, hinput⟩, rfl⟩
    obtain ⟨j, c, hp, hhalted, hgrammar, hdocument, hspans⟩ := (suspended_iff i s).1 hs
    refine ⟨j, c, ⟨hp, hc, hgrammar ▸ hg, ?_⟩, hhalted⟩
    rw [← hdocument, ← hspans, hinput]
  · rintro ⟨j, c, hsucceeds, hhalted⟩
    exact ⟨⟨c.language.grammar, c.document, c.ranges, progress⟩,
      ⟨(suspended_iff i _).2 ⟨j, c, hsucceeds.pending, hhalted, rfl, rfl, rfl⟩,
        hsucceeds.grammar, hsucceeds.input⟩, rfl⟩

/-- No two calls go on with what one call left. -/
lemma Succeeds.unique {c₀ : Call σ} (h : Succeeds fingerprint requests j c₀ i c)
    (h' : Succeeds fingerprint requests j c₀ k c') : k = i := by
  obtain hlt | heq | hlt := Nat.lt_trichotomy k i
  · have hnone := h.pending.last k h'.pending.before hlt
    rw [h'.called] at hnone
    cases hnone
  · exact heq
  · have hnone := h'.pending.last i h.pending.before hlt
    rw [h.called] at hnone
    cases hnone

/-- An engine is given the old tree exactly if it is of the same grammar and over the same ranges. -/
lemma oldTree_iff (hc : callAt fingerprint requests i = some c) (t : Tree) :
    c.task.oldTree = some t ↔
      c.oldTree = some t ∧ t.grammar = c.language.grammar ∧ t.includedRanges = c.ranges := by
  obtain ⟨r, hr, hcall⟩ := Option.bind_eq_some_iff.1 hc
  obtain ⟨-, hranges, ⟨outside, htask⟩, -⟩ := exists_of_call hcall
  rw [htask, taskBy, Option.filter_eq_some_iff, admits, Bool.and_eq_true, beq_iff_eq, beq_iff_eq,
    hranges]

/-- A request that is idle may be left out if no engine is called between it and a call. -/
lemma task_eraseIdx (hc : callAt fingerprint requests i = some c) (hk : k < i)
    (hr : requests[k]? = some r) (hidle : r.Idle (after fingerprint requests k))
    (hnone : ∀ m, k < m → m < i → callAt fingerprint requests m = none) :
    ∃ c', callAt fingerprint (requests.eraseIdx k) (i - 1) = some c' ∧ c'.task = c.task := by
  obtain ⟨n, rfl⟩ := Nat.exists_eq_add_of_le (Nat.succ_le_of_lt hk)
  obtain ⟨s, hs, hcall⟩ := Option.bind_eq_some_iff.1 hc
  obtain ⟨c', hc', htask⟩ := (alike_eraseIdx hr hidle n hnone).call hcall
  have hsame : (requests.eraseIdx k)[k + n]? = some s := by
    rw [List.getElem?_eraseIdx_of_ge (by omega), Nat.add_right_comm, hs]
  refine ⟨c', ?_, htask⟩
  rw [callAt, show k + 1 + n - 1 = k + n by omega, hsame, Option.bind_some, hc']

/-- An engine is given progress exactly if the last call before it was halted with that progress,
nothing since then drops it, and this call is for the same grammar and an input of the same
fingerprint; what a call leaves goes to one call at most. It is given the old tree exactly if
there is one of its grammar and of the ranges that the parser is set to. A request that is idle
has no say in what the next call is given. -/
theorem handed_iff (hc : callAt fingerprint requests i = some c) :
    (∀ progress, c.task.progress = some progress ↔
      ∃ j c₀, Succeeds fingerprint requests j c₀ i c ∧ c₀.outcome = .halted progress) ∧
    (∀ j c₀ k c', Succeeds fingerprint requests j c₀ i c →
      Succeeds fingerprint requests j c₀ k c' → k = i) ∧
    (∀ t, c.task.oldTree = some t ↔
      c.oldTree = some t ∧ t.grammar = c.language.grammar ∧ t.includedRanges = c.ranges) ∧
    ∀ k r, k < i → requests[k]? = some r → r.Idle (after fingerprint requests k) →
      (∀ m, k < m → m < i → callAt fingerprint requests m = none) →
      ∃ c', callAt fingerprint (requests.eraseIdx k) (i - 1) = some c' ∧ c'.task = c.task :=
  ⟨progress_iff hc, fun _ _ _ _ => Succeeds.unique, oldTree_iff hc,
    fun _ _ hk hr hidle => task_eraseIdx hc hk hr hidle⟩

/-- A language whose engine counts the calls that it was halted in. -/
def counting : Language Nat where
  grammar := ⟨0, "counting", newestVersion, [], [], by decide, by decide⟩
  engine := fun _ _ task interrupt => (.halted (task.progress.getD 0 + 1), interrupt)

/-- Two calls for one input; the timeout is set between them and ranges are refused. -/
def haltedTwice : List (Request Nat) :=
  [.setLanguage counting, .parse ⟨fun _ _ => 0, fun _ => 0, 0⟩ 0 ⟨[120], .utf8⟩ none,
    .setTimeout 5, .setIncludedRanges [⟨⟨2, 0, 2⟩, ⟨1, 0, 1⟩⟩], .setLanguage counting,
    .parse ⟨fun _ _ => 0, fun _ => 0, 0⟩ 1 ⟨[120], .utf8⟩ none]

/-- The fifth request goes on from where the second was halted, also without the idle one in between. -/
theorem handed_iff_second : ∃ c, callAt Prod.mk haltedTwice 5 = some c ∧
    c.task.progress = some 1 ∧
    (∃ j c₀, Succeeds Prod.mk haltedTwice j c₀ 5 c ∧ c₀.outcome = .halted 1) ∧
    ∃ c', callAt Prod.mk (haltedTwice.eraseIdx 3) 4 = some c' ∧ c'.task = c.task := by
  obtain ⟨c, hc, hp⟩ : ∃ c, callAt Prod.mk haltedTwice 5 = some c ∧
    c.task.progress = some 1 := ⟨_, rfl, by decide⟩
  obtain ⟨hprogress, -, -, hidle⟩ := handed_iff hc
  refine ⟨c, hc, hp, (hprogress 1).1 hp, hidle 3 _ (by decide) rfl ⟨.invalidRanges 0, rfl⟩ ?_⟩
  intro m hm hm'
  obtain rfl : m = 4 := by omega
  rfl

end Reparse.Parser
