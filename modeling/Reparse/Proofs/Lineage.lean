import Reparse.Proofs.Summaries

/-!
# Lineage

Where the trees of C come from. Whatever the old trees are that a parser of C is given, as long as builders
made them for the grammar of C, the subtrees in its progress were taken from such trees (`Ran.borrows`),
and so the tree that a call returns is one that builders make (`Ran.grown`).
-/

namespace Reparse

/-- Whether a subtree is one of a tree that builders made. -/
def Green.Cut (grammar : Grammar) (g : Green) : Prop :=
  ∃ old : Tree, old.Grown grammar ∧ ∃ path n, old.rootNode.descend? path = some n ∧ n.green = g

namespace C

open Item

/-! ## Calls that take nothing over -/

mutual

/-- An item that is whole takes no subtree over. -/
lemma reuse_not_mem_calls {g : Green} : ∀ {i : Item}, i.Whole → Call.reuse g ∉ i.calls
  | .token _ _, _, h => by cases List.mem_singleton.1 h
  | .missing _ _, _, h => by cases List.mem_singleton.1 h
  | .node _ _ parts, hw, h => by
    rcases List.mem_cons.1 h with h | h
    · cases h
    rcases List.mem_append.1 h with h | h
    · exact reuse_not_mem_callsOf hw.2 h
    · cases List.mem_singleton.1 h

/-- Items that are whole take no subtree over. -/
lemma reuse_not_mem_callsOf {g : Green} : ∀ {is : List Item}, WholeAll is → Call.reuse g ∉ callsOf is
  | [], _, h => by cases h
  | _ :: _, hw, h => (List.mem_append.1 h).elim (reuse_not_mem_calls hw.1) (reuse_not_mem_callsOf hw.2)

end

/-- To close a block takes no subtree over. -/
lemma Block.not_mem_closing {g : Green} (b : Block) : Call.reuse g ∉ b.closing := by
  unfold closing
  split <;> simp

/-- A piece that is read takes nothing over. -/
lemma Piece.Inner.reuse_not_mem_calls {g : Green} {p : Piece} (h : p.Inner) : Call.reuse g ∉ p.calls := by
  have heach : p.Each fun _ => True := h.each fun _ _ _ _ _ => trivial
  cases p with
  | whole item => exact C.reuse_not_mem_calls heach.whole
  | opened definition brace =>
    have hhead : Call.reuse g ∉ callsOf (definition.getD []) := reuse_not_mem_callsOf heach.whole
    cases definition with
    | none => simp [Piece.calls, Block.opening]
    | some head => simpa [Piece.calls, Block.opening] using hhead

/-! ## Steps -/

/-- Whether all subtrees that were taken over in a draft have a property. -/
def Draft.Borrows (P : Green → Prop) (d : Draft) : Prop := ∀ g, Call.reuse g ∈ d.calls → P g

/-- Whether all subtrees that may be taken over from an old tree have a property. -/
def Lends (P : Green → Prop) (oldTree : Option Tree) : Prop :=
  ∀ t ∈ oldTree, ∀ path n, t.rootNode.descend? path = some n → P n.green

section

variable {P : Green → Prop} {source : Source} {oldTree : Option Tree} {s s' : State} {d : Draft}

/-- The empty draft has taken nothing over. -/
lemma Draft.Borrows.empty : Draft.empty.Borrows P := fun g hg => by
  cases List.mem_singleton.1 hg

/-- What a draft takes over does not change with calls that take nothing over. -/
lemma Draft.Borrows.append {d' : Draft} {more : List Call} (h : d.Borrows P)
    (hcalls : d'.calls = d.calls ++ more) (hmore : ∀ g, Call.reuse g ∉ more) : d'.Borrows P := by
  intro g hg
  rw [hcalls] at hg
  exact h g ((List.mem_append.1 hg).resolve_right (hmore g))

/-- Comments take no subtree over. -/
lemma State.borrows_here (h : s.draft.Borrows P) : s.here.Borrows P :=
  h.append s.calls_here fun _ => reuse_not_mem_callsOf (inner_comments s.tokens).whole

/-- A step takes nothing over but what the old tree lends. -/
lemma Leads.borrows (hl : Leads source oldTree s s') (hlends : Lends P oldTree)
    (h : s.draft.Borrows P) : s'.draft.Borrows P := by
  have hhere := State.borrows_here h
  cases hl.moves with
  | @closes b outer hb _ =>
    refine hhere.append (s.here.calls_close (s.blocks_here.trans hb) _ _) fun g hg => ?_
    rcases List.mem_append.1 hg with hg | hg
    · exact reuse_not_mem_callsOf (inner_expect .rightBrace none s.pending).whole hg
    · exact b.not_mem_closing hg
  | @reuses t rest n _ _ hr =>
    intro g hg
    have hcalls : Call.reuse g ∈ s.here.calls ++ [Call.reuse n.green] := by
      rw [← show _ = s.here.calls ++ [Call.reuse n.green] from s.here.calls_add [.reused n.green]]
      exact hg
    rcases List.mem_append.1 hcalls with hg | hg
    · exact hhere g hg
    · obtain ⟨tree, htree, hmem, -⟩ := exists_of_reusable hr
      obtain ⟨path, -, hpath⟩ := Node.exists_descend?_of_mem_candidatesBelow hmem
      obtain rfl := Call.reuse.inj (List.mem_singleton.1 hg)
      exact hlends tree htree path n hpath
  | reads _ _ _ hr =>
    exact hhere.append (s.here.calls_place _) fun _ => (Piece.Inner.of_read hr).1.reuse_not_mem_calls

/-- Along the steps of a parse only subtrees of the old tree are taken over. -/
lemma borrows_of_steps (hs : Steps source oldTree s s') (hlends : Lends P oldTree)
    (h : s.draft.Borrows P) : s'.draft.Borrows P := by
  induction hs with
  | refl => exact h
  | tail _ hl ih => exact hl.borrows hlends ih

end

/-! ## Calls of a builder -/

/-- A call as a builder takes it. -/
def Call.toBuilder (s : Source) : Call → Builder.Call
  | startNode rule field => .startNode rule.symbol (field.map Field.id)
  | leaf field t isExtra => .leaf { Item.leafOf s field t with isExtra := isExtra }
  | missing field kind => .missing kind.symbol (field.map Field.id)
  | reuse subtree => .reuse subtree none
  | finishNode => .finishNode

/-- A call is performed as one of the builder. -/
lemma Call.perform_eq (s : Source) (b : Builder) (c : Call) : c.perform s b = b.call (c.toBuilder s) := by
  cases c <;> rfl

/-! ## Calls of a parser -/

/-- Whether a parser was used for calls of any kind. Of the engines for the grammar of C it was given none
but that of C, and of the old trees of that grammar none but those that builders made. Between calls its
settings may change, and its progress may be dropped. -/
inductive Ran : Parser Checkpoint → Prop where
  | new {p} : p.suspended = none → Ran p
  | set {p q} : Ran p → q.suspended = none ∨ q.suspended = p.suspended → Ran q
  | called {p q d oldTree outside generation result} :
    Ran p → (∀ l ∈ p.language, l.grammar = grammar → l = language) →
    (∀ t ∈ oldTree, t.grammar = grammar → t.Grown grammar) →
    p.parse outside generation d oldTree = (result, q) → Ran q

section

variable {p q : Parser Checkpoint} {d : Document} {oldTree : Option Tree} {outside : Outside}
  {generation : Nat} {t : Tree}

/-- An old tree of the grammar that builders made lends subtrees of such a tree. -/
lemma lends_of_grown (hold : ∀ t ∈ oldTree, t.grammar = grammar → t.Grown grammar) :
    Lends (Green.Cut grammar) (oldTree.filter (p.admits language)) := by
  intro t ht path n hn
  obtain ⟨hmem, hadmits⟩ := Option.filter_eq_some_iff.1 ht
  rw [Parser.admits, Bool.and_eq_true, beq_iff_eq] at hadmits
  exact ⟨t, hold t hmem hadmits.1, path, n, hn, rfl⟩

/-- A call starts with what the progress has taken over. -/
lemma borrows_startOf
    (h : ∀ c ∈ p.suspended, c.grammar = grammar → c.progress.draft.Borrows (Green.Cut grammar)) :
    (startOf p d).draft.Borrows (Green.Cut grammar) := by
  rw [startOf]
  cases hc : p.suspended.filter (p.continues language d) with
  | none => exact .empty
  | some c =>
    obtain ⟨hmem, hcontinues⟩ := Option.filter_eq_some_iff.1 hc
    rw [Parser.continues, Bool.and_eq_true, Bool.and_eq_true, beq_iff_eq] at hcontinues
    exact h c hmem hcontinues.1.1

/-- A call leaves no progress but that of its engine, for its grammar. -/
lemma suspended_of_parse {l : Language Checkpoint} {result : Except Failure Tree}
    (hl : p.language = some l) (hp : p.parse outside generation d oldTree = (result, q)) :
    q.suspended = none ∨ ∃ progress,
      (l.engine generation (p.probes outside) (p.task outside l d oldTree) (.start p.timeout)).1 =
        .halted progress ∧
      q.suspended = some ⟨l.grammar, d, p.includedRanges, progress⟩ := by
  rw [Parser.parse, hl] at hp
  obtain rfl := congrArg Prod.snd hp
  dsimp only
  generalize l.engine generation (p.probes outside) (p.task outside l d oldTree) (.start p.timeout) = r
  obtain ⟨_ | progress | _ | _, interrupt⟩ := r
  case halted => exact .inr ⟨progress, rfl, rfl⟩
  all_goals exact .inl rfl

/-- The progress for the grammar of C has taken over nothing but subtrees of trees that builders made. -/
theorem Ran.borrows (h : Ran p) :
    ∀ c ∈ p.suspended, c.grammar = grammar → c.progress.draft.Borrows (Green.Cut grammar) := by
  induction h with
  | new hnone =>
    intro c hc
    rw [hnone] at hc
    cases hc
  | set _ hsuspended ih =>
    rcases hsuspended with hnone | hsame
    · intro c hc
      rw [hnone] at hc
      cases hc
    · rwa [hsame]
  | @called p q d oldTree outside generation result _ hengine hold hp ih =>
    intro c hc hgrammar
    cases hl : p.language with
    | none =>
      have hq : q = p := by
        rw [Parser.parse, hl] at hp
        exact (congrArg Prod.snd hp).symm
      exact ih c (hq ▸ hc) hgrammar
    | some l =>
      rcases suspended_of_parse hl hp with hnone | ⟨progress, hhalted, hsuspended⟩
      · rw [hnone] at hc
        cases hc
      · rw [hsuspended] at hc
        obtain rfl := Option.some.inj hc
        obtain rfl := hengine l hl hgrammar
        obtain ⟨s, hsteps, rfl⟩ := exists_of_halted hhalted
        exact borrows_of_steps hsteps (lends_of_grown hold) (borrows_startOf ih)

/-- The items of which a tree is made are calls of a builder. -/
lemma builds_of_treeOf {source : Source} {items : List Item} (h : treeOf source generation items = .ok t) :
    Builder.Builds grammar ((Item.node none .document items).calls.map (Call.toBuilder source)) t := by
  obtain ⟨b, hadd, hfinish⟩ := bind_ok h
  have hcalls := performAll_calls source (.node none .document items) (.new grammar generation) []
  rw [List.append_nil, hadd] at hcalls
  have hperform : (fun b c => Builder.call b (Call.toBuilder source c)) = Call.perform source :=
    funext fun b => funext fun c => (Call.perform_eq source b c).symm
  have hmap : ((Item.node none .document items).calls.map (Call.toBuilder source)).foldlM Builder.call
      (.new grammar generation) = .ok b := by
    rw [List.foldlM_map, hperform]
    exact hcalls
  exact Builder.builds_of_ok hmap hfinish

/-- The tree that a call returns is one that builders make. -/
theorem Ran.grown (h : Ran p) (hl : p.language = some language)
    (hold : ∀ t ∈ oldTree, t.grammar = grammar → t.Grown grammar)
    (hp : p.parse outside generation d oldTree = (.ok t, q)) : t.Grown grammar := by
  obtain ⟨s, hsteps, hblocks, htree⟩ := exists_of_parse hl hp
  have hs := borrows_of_steps hsteps (lends_of_grown hold) (borrows_startOf h.borrows)
  refine .built (·.Grown grammar) (fun _ hgrown => hgrown) (fun g field hg => ?_) (builds_of_treeOf htree)
  obtain ⟨c, hc, hreuse⟩ := List.mem_map.1 hg
  rw [State.calls_document hblocks] at hc
  cases c with
  | reuse g' =>
    obtain ⟨rfl, -⟩ := Builder.Call.reuse.inj hreuse
    refine State.borrows_here hs g' ((List.mem_append.1 hc).resolve_right fun hmem => ?_)
    cases List.mem_singleton.1 hmem
  | _ => cases hreuse

end

end C

end Reparse
