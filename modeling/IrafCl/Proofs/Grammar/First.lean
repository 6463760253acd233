import IrafCl.Grammar.First
import IrafCl.Proofs.Grammar.Language
import Mathlib.Data.List.Nodup
import Mathlib.Logic.Function.Iterate

/-!
# First sets are closed

The tables of a grammar are reached by repeating a step. Whether one terminal is in the sets depends on
where it was a step before and on nothing else, and there are no more nonterminals than rules, so the
chain of steps is long enough (`stable_of_length_le`): the nullable symbols and the first sets are closed
under the rules. Hence no span is missed: a rule that spans the next tokens is a candidate before the
first of them (`mem_candidates_of_spans`).
-/

namespace IrafCl.Grammar

/-! ## Lists without repetition -/

theorem length_eraseDups_le {α : Type} [DecidableEq α] (l : List α) : l.eraseDups.length ≤ l.length := by
  induction hn : l.length using Nat.strong_induction_on generalizing l with
  | _ n ih =>
    cases l with
    | nil => simp
    | cons b l =>
      have hle := List.length_filter_le (fun c => !c == b) l
      simp only [List.length_cons] at hn
      have := ih _ (by omega) (l.filter fun c => !c == b) rfl
      rw [List.eraseDups_cons, List.length_cons]
      omega

/-! ## Chains of steps -/

theorem settle_eq_iterate {α : Type} [DecidableEq α] (step : α → α) (n : Nat) (a : α) :
    settle step n a = step^[n] a := by
  induction n generalizing a with
  | zero => rfl
  | succ n ih =>
    rw [settle, Function.iterate_succ_apply]
    split
    · next h => rw [h, Function.iterate_fixed h]
    · exact ih (step a)

/-- A growing chain of subsets of a finite set, each of which determines the next, no longer grows
after as many steps as the set has elements. -/
theorem stable_of_length_le {α : Type} (P : Nat → α → Prop) (all : List α) (hall : ∀ n x, P n x → x ∈ all)
    (hmono : ∀ n x, P n x → P (n + 1) x)
    (hnext : ∀ n, (∀ x, P (n + 1) x → P n x) → ∀ x, P (n + 2) x → P (n + 1) x) :
    ∀ n, all.length ≤ n → ∀ x, P (n + 1) x → P n x := by
  classical
  -- as long as the chain grows it has one more element after each step
  have hgrow : ∀ n, (∀ x, P (n + 1) x → P n x) ∨ ∃ l : List α, l.Nodup ∧ l.length = n + 1 ∧ ∀ x ∈ l, P (n + 1) x := by
    intro n
    induction n with
    | zero =>
      by_cases h : ∀ x, P 1 x → P 0 x
      · exact .inl h
      · simp only [not_forall] at h
        obtain ⟨x, hx, _⟩ := h
        exact .inr ⟨[x], by simp, rfl, by simpa using hx⟩
    | succ n ih =>
      by_cases h : ∀ x, P (n + 2) x → P (n + 1) x
      · exact .inl h
      · rcases ih with hs | ⟨l, hnd, hlen, hl⟩
        · exact absurd (hnext n hs) h
        · simp only [not_forall] at h
          obtain ⟨x, hx, hxn⟩ := h
          refine .inr ⟨x :: l, List.nodup_cons.mpr ⟨fun hm => hxn (hl x hm), hnd⟩, by simp [hlen], ?_⟩
          intro y hy
          rcases List.mem_cons.mp hy with rfl | hy
          · exact hx
          · exact hmono _ _ (hl y hy)
  intro n hn
  rcases hgrow n with h | ⟨l, hnd, hlen, hl⟩
  · exact h
  · have := hnd.length_le_of_subset (fun x hx => hall _ x (hl x hx))
    omega

variable {κ : Type} [DecidableEq κ] {g : Grammar κ} {ts : List (Token κ)}

/-! ## Nonterminals -/

theorem mem_nonterminals {s : κ} : s ∈ g.nonterminals ↔ g.isNonterminal s = true := by
  rw [nonterminals, List.mem_eraseDups, List.mem_map, isNonterminal, Array.any_eq_true']
  simp

theorem length_nonterminals_le : g.nonterminals.length ≤ g.rules.size := by
  have := length_eraseDups_le (g.rules.toList.map (·.lhs))
  simpa [nonterminals] using this

/-! ## Nullable symbols -/

theorem mem_nullableStep {known : List κ} {s : κ} :
    s ∈ g.nullableStep known ↔ ∃ r, (g.rule r).lhs = s ∧ ∀ x ∈ (g.rule r).rhs, x ∈ known := by
  simp only [nullableStep, List.mem_filter, mem_nonterminals, Array.any_eq_true', Bool.and_eq_true,
    decide_eq_true_eq, List.all_eq_true, List.contains_iff_mem]
  constructor
  · rintro ⟨_, r, hr, rfl, hx⟩
    obtain ⟨i, rfl⟩ := exists_index hr
    exact ⟨i, rfl, hx⟩
  · rintro ⟨r, rfl, hx⟩
    exact ⟨isNonterminal_lhs r, g.rule r, mem_rules r, rfl, hx⟩

theorem nullableStep_mono {a b : List κ} (h : a ⊆ b) : g.nullableStep a ⊆ g.nullableStep b := by
  intro s hs
  obtain ⟨r, hr, hx⟩ := mem_nullableStep.mp hs
  exact mem_nullableStep.mpr ⟨r, hr, fun x hm => h (hx x hm)⟩

theorem iterate_nullableStep_succ (n : Nat) :
    g.nullableStep^[n + 1] [] = g.nullableStep (g.nullableStep^[n] []) :=
  Function.iterate_succ_apply' _ _ _

theorem iterate_nullableStep_subset (n : Nat) :
    g.nullableStep^[n] [] ⊆ g.nullableStep^[n + 1] [] := by
  induction n with
  | zero => simp
  | succ n ih =>
    rw [iterate_nullableStep_succ, iterate_nullableStep_succ]
    exact nullableStep_mono ih

/-- A rule whose symbols all vanish makes its nonterminal vanish. -/
theorem mem_nullable_of_rule (r : g.Index) (h : ∀ x ∈ (g.rule r).rhs, x ∈ g.nullable) :
    (g.rule r).lhs ∈ g.nullable := by
  rw [nullable, settle_eq_iterate] at h ⊢
  have hlen : g.nonterminals.length ≤ g.rules.size + 1 := by have := @length_nonterminals_le κ _ g; omega
  refine stable_of_length_le (fun n s => s ∈ g.nullableStep^[n] []) g.nonterminals ?_
    (fun n => @iterate_nullableStep_subset κ _ g n) ?_ _ hlen _ ?_
  · intro n s hs
    cases n with
    | zero => simp at hs
    | succ n =>
      rw [iterate_nullableStep_succ] at hs
      obtain ⟨r, rfl, _⟩ := mem_nullableStep.mp hs
      exact mem_nonterminals.mpr (isNonterminal_lhs r)
  · intro n hstable s hs
    rw [iterate_nullableStep_succ] at hs ⊢
    exact nullableStep_mono hstable hs
  · rw [iterate_nullableStep_succ]
    exact mem_nullableStep.mpr ⟨r, rfl, h⟩

/-- What every rule keeps that has it of all its symbols, the nullable symbols have. -/
theorem nullable_induction {P : κ → Prop} (h : ∀ r, (∀ x ∈ (g.rule r).rhs, P x) → P (g.rule r).lhs) {s : κ}
    (hs : s ∈ g.nullable) : P s := by
  rw [nullable, settle_eq_iterate] at hs
  generalize g.rules.size + 1 = n at hs
  induction n generalizing s with
  | zero => simp at hs
  | succ n ih =>
    rw [iterate_nullableStep_succ] at hs
    obtain ⟨r, rfl, hr⟩ := mem_nullableStep.mp hs
    exact h r fun x hx => ih (hr x hx)

theorem isNonterminal_of_mem_nullable {s : κ} (h : s ∈ g.nullable) : g.isNonterminal s = true :=
  nullable_induction (P := fun s => g.isNonterminal s = true) (fun r _ => isNonterminal_lhs r) h

/-- What spans nothing vanishes. -/
theorem mem_nullable_of_spans {α : List κ} {i j : Nat} (h : Spans g ts α i j) :
    i = j → ∀ x ∈ α, x ∈ g.nullable := by
  induction h with
  | nil i => simp
  | terminal _ _ hrest _ => intro hij; have := hrest.le; omega
  | nonterminal r hr hrest ih₁ ih₂ =>
    intro hij
    have := hr.le; have := hrest.le
    intro x hx
    rcases List.mem_cons.mp hx with rfl | hx
    · exact mem_nullable_of_rule r (ih₁ (by omega))
    · exact ih₂ (by omega) x hx

/-! ## First sets -/

theorem mem_union {a b : List κ} {x : κ} : x ∈ union a b ↔ x ∈ a ∨ x ∈ b := by
  by_cases h : x ∈ a <;> simp [union, h]

/-- What a sequence begins with is its first terminal, or what a nonterminal begins with that only
vanishing ones stand before. -/
theorem mem_sequenceFirst_cons {nullable rest : List κ} {sets : FirstSets κ} {s t : κ} :
    t ∈ g.sequenceFirst nullable sets (s :: rest) ↔
      (g.isNonterminal s = false ∧ t = s) ∨
      (g.isNonterminal s = true ∧
        (t ∈ FirstSets.of sets s ∨ (s ∈ nullable ∧ t ∈ g.sequenceFirst nullable sets rest))) := by
  cases hs : g.isNonterminal s with
  | false => simp [sequenceFirst, hs]
  | true => by_cases hn : s ∈ nullable <;> simp [sequenceFirst, hs, hn, mem_union]

/-- Only where a terminal is in the sets matters for whether a sequence begins with it. -/
theorem mem_sequenceFirst_mono {known known' α : List κ} {a b : FirstSets κ} {t : κ} (hknown : known ⊆ known')
    (h : ∀ s, t ∈ FirstSets.of a s → t ∈ FirstSets.of b s) (ht : t ∈ g.sequenceFirst known a α) :
    t ∈ g.sequenceFirst known' b α := by
  induction α with
  | nil => simp [sequenceFirst] at ht
  | cons s rest ih =>
    rw [mem_sequenceFirst_cons] at ht ⊢
    rcases ht with ht | ⟨hs, ht | ⟨hn, ht⟩⟩
    · exact .inl ht
    · exact .inr ⟨hs, .inl (h s ht)⟩
    · exact .inr ⟨hs, .inr ⟨hknown hn, ih ht⟩⟩

theorem FirstSets.of_map (sets : FirstSets κ) (f : κ → List κ → List κ) (s : κ) :
    FirstSets.of (sets.map fun (t, set) => (t, f t set)) s =
      if s ∈ sets.map (·.1) then f s (FirstSets.of sets s) else [] := by
  induction sets with
  | nil => rfl
  | cons p sets ih =>
    obtain ⟨t, set⟩ := p
    simp only [FirstSets.of, List.map_cons, List.find?_cons, List.mem_cons] at ih ⊢
    by_cases hts : t = s
    · subst hts; simp
    · have hst : ¬ s = t := fun h => hts h.symm
      simp only [hts, decide_false, hst, false_or]
      exact ih

/-- Folding the rules of a nonterminal into its set adds what they begin with, and nothing else. -/
theorem mem_foldl_union {rules : List (Rule κ)} {f : Rule κ → List κ} {s t : κ} {set : List κ} :
    t ∈ rules.foldl (fun set r => if r.lhs = s then union set (f r).eraseDups else set) set ↔
      t ∈ set ∨ ∃ r ∈ rules, r.lhs = s ∧ t ∈ f r := by
  induction rules generalizing set with
  | nil => simp
  | cons r rules ih =>
    rw [List.foldl_cons, ih]
    by_cases hr : r.lhs = s <;> simp [hr, mem_union, or_assoc]

/-- The table has a row for each nonterminal, in order. -/
def Keyed (g : Grammar κ) (sets : FirstSets κ) : Prop := sets.map (·.1) = g.nonterminals

theorem keyed_firstStep {nullable : List κ} {sets : FirstSets κ} (h : Keyed g sets) :
    Keyed g (g.firstStep nullable sets) := by
  rw [Keyed, firstStep, List.map_map]
  exact h

theorem mem_firstStep {nullable : List κ} {sets : FirstSets κ} (h : Keyed g sets) {s t : κ} :
    t ∈ FirstSets.of (g.firstStep nullable sets) s ↔ g.isNonterminal s = true ∧
      (t ∈ FirstSets.of sets s ∨
        ∃ r, (g.rule r).lhs = s ∧ t ∈ g.sequenceFirst nullable sets (g.rule r).rhs) := by
  rw [firstStep, FirstSets.of_map sets fun s set => g.rules.foldl (fun set r =>
      if r.lhs = s then union set (g.sequenceFirst nullable sets r.rhs).eraseDups else set) set, h]
  by_cases hs : g.isNonterminal s = true
  · rw [if_pos (mem_nonterminals.mpr hs), ← Array.foldl_toList, mem_foldl_union]
    simp only [hs, true_and, Array.mem_toList_iff]
    constructor
    · rintro (ht | ⟨r, hr, hl, ht⟩)
      · exact .inl ht
      · obtain ⟨i, rfl⟩ := exists_index hr
        exact .inr ⟨i, hl, ht⟩
    · rintro (ht | ⟨r, hl, ht⟩)
      · exact .inl ht
      · exact .inr ⟨g.rule r, mem_rules r, hl, ht⟩
  · rw [if_neg (fun hm => hs (mem_nonterminals.mp hm))]
    simp [hs]

/-- The table of first sets after some steps. -/
def firstChain (g : Grammar κ) (n : Nat) : FirstSets κ :=
  (g.firstStep g.nullable)^[n] (g.nonterminals.map fun s => (s, []))

theorem firstChain_succ (n : Nat) : g.firstChain (n + 1) = g.firstStep g.nullable (g.firstChain n) :=
  Function.iterate_succ_apply' _ _ _

theorem keyed_firstChain (n : Nat) : Keyed g (g.firstChain n) := by
  induction n with
  | zero => simp [Keyed, firstChain, Function.comp_def]
  | succ n ih => rw [firstChain_succ]; exact keyed_firstStep ih

theorem mem_firstChain_succ {n : Nat} {s t : κ} :
    t ∈ FirstSets.of (g.firstChain (n + 1)) s ↔ g.isNonterminal s = true ∧
      (t ∈ FirstSets.of (g.firstChain n) s ∨
        ∃ r, (g.rule r).lhs = s ∧ t ∈ g.sequenceFirst g.nullable (g.firstChain n) (g.rule r).rhs) := by
  rw [firstChain_succ]
  exact mem_firstStep (keyed_firstChain n)

theorem firstChain_zero (s : κ) : FirstSets.of (g.firstChain 0) s = [] := by
  have := FirstSets.of_map (g.nonterminals.map fun s => (s, ([] : List κ))) (fun _ _ => []) s
  simpa [firstChain, Function.comp_def] using this

theorem isNonterminal_of_mem_firstChain {n : Nat} {s t : κ} (h : t ∈ FirstSets.of (g.firstChain n) s) :
    g.isNonterminal s = true := by
  cases n with
  | zero => rw [firstChain_zero] at h; cases h
  | succ n => exact (mem_firstChain_succ.mp h).1

/-- What a rule begins with, its nonterminal begins with. -/
theorem mem_firstSets_of_rule (r : g.Index) {t : κ}
    (h : t ∈ g.sequenceFirst g.nullable g.firstSets (g.rule r).rhs) :
    t ∈ FirstSets.of g.firstSets (g.rule r).lhs := by
  have hsets : g.firstSets = g.firstChain (g.rules.size + 1) := settle_eq_iterate _ _ _
  rw [hsets] at h ⊢
  have hlen : g.nonterminals.length ≤ g.rules.size + 1 := by have := @length_nonterminals_le κ _ g; omega
  refine stable_of_length_le (fun n s => t ∈ FirstSets.of (g.firstChain n) s) g.nonterminals ?_ ?_ ?_ _ hlen
    (g.rule r).lhs ?_
  · exact fun n s hs => mem_nonterminals.mpr (isNonterminal_of_mem_firstChain hs)
  · exact fun n s hs => mem_firstChain_succ.mpr ⟨isNonterminal_of_mem_firstChain hs, .inl hs⟩
  · intro n hstable s hs
    obtain ⟨hnt, hs | ⟨r, hl, hs⟩⟩ := mem_firstChain_succ.mp hs
    · exact hs
    · exact mem_firstChain_succ.mpr ⟨hnt, .inr ⟨r, hl, mem_sequenceFirst_mono (List.Subset.refl _) hstable hs⟩⟩
  · exact mem_firstChain_succ.mpr ⟨isNonterminal_lhs r, .inr ⟨r, rfl, h⟩⟩

/-- A sequence that spans something begins with the first token of it. -/
theorem mem_sequenceFirst_of_spans {α : List κ} {i j : Nat} (h : Spans g ts α i j) :
    i < j → ∀ t, ts[i]? = some t → t.kind ∈ g.sequenceFirst g.nullable g.firstSets α := by
  induction h with
  | nil i => intro hlt; omega
  | terminal ht hn _ _ =>
    intro _ t ht'
    rw [ht] at ht'
    cases ht'
    exact mem_sequenceFirst_cons.mpr (.inl ⟨hn, rfl⟩)
  | @nonterminal r rest i k j hr hrest ih₁ ih₂ =>
    intro hlt t ht
    refine mem_sequenceFirst_cons.mpr (.inr ⟨isNonterminal_lhs r, ?_⟩)
    rcases Nat.lt_or_ge i k with hik | hki
    · exact .inl (mem_firstSets_of_rule r (ih₁ hik t ht))
    · -- the rule vanishes, and the rest begins with the token
      obtain rfl : i = k := Nat.le_antisymm hr.le hki
      exact .inr ⟨mem_nullable_of_rule r (mem_nullable_of_spans hr rfl), ih₂ hlt t ht⟩

/-! ## Candidates -/

theorem mem_terminals {s : κ} :
    s ∈ g.terminals ↔ g.isNonterminal s = false ∧ ∃ r, s ∈ (g.rule r).rhs := by
  simp only [terminals, List.mem_eraseDups, List.mem_filter, List.mem_flatMap, Array.mem_toList_iff,
    Bool.not_eq_true', and_comm]
  refine and_congr_right fun _ => ⟨?_, ?_⟩
  · rintro ⟨r, hs, hr⟩
    obtain ⟨i, rfl⟩ := exists_index hr
    exact ⟨i, hs⟩
  · rintro ⟨r, hs⟩
    exact ⟨g.rule r, hs, mem_rules r⟩

theorem mem_candidates {s t : κ} {r : g.Index} :
    r ∈ g.candidates g.lookaheads s t ↔ (g.rule r).lhs = s ∧
      (t ∈ g.sequenceFirst g.nullable g.firstSets (g.rule r).rhs ∨
        ((∀ x ∈ (g.rule r).rhs, x ∈ g.nullable) ∧ t ∈ g.terminals)) := by
  have hget : g.lookaheads[r.val]? = some (
      let first := g.sequenceFirst g.nullable g.firstSets (g.rule r).rhs
      if (g.rule r).rhs.all fun s => g.nullable.contains s then union first g.terminals else first) := by
    rw [lookaheads, Array.getElem?_map, Array.getElem?_eq_getElem r.isLt]
    rfl
  rw [candidates, List.mem_filter, hget]
  simp only [mem_indices, true_and, Bool.and_eq_true, decide_eq_true_eq, Option.any_some,
    List.contains_iff_mem, List.all_eq_true]
  refine and_congr_right fun _ => ?_
  by_cases hn : ∀ x ∈ (g.rule r).rhs, x ∈ g.nullable
  · rw [if_pos hn, mem_union]
    exact or_congr_right (and_iff_right hn).symm
  · rw [if_neg hn]
    exact (or_iff_left fun h => hn h.1).symm

/-- A rule that spans tokens from a position on is a candidate before the symbol ahead of it, if that
is a terminal of the grammar and the next token's where there is one to span. -/
theorem mem_candidates_of_spans {r : g.Index} {i j : Nat} {ahead : κ} (h : Spans g ts (g.rule r).rhs i j)
    (hahead : ahead ∈ g.terminals) (hnext : ∀ t, ts[i]? = some t → t.kind = ahead) :
    r ∈ g.candidates g.lookaheads (g.rule r).lhs ahead := by
  refine mem_candidates.mpr ⟨rfl, ?_⟩
  rcases Nat.lt_or_ge i j with hij | hji
  · have hi : i < ts.length := Nat.lt_of_lt_of_le hij (h.le_length hij)
    have ht := List.getElem?_eq_getElem hi
    have := mem_sequenceFirst_of_spans h hij _ ht
    exact .inl (hnext _ ht ▸ this)
  · exact .inr ⟨mem_nullable_of_spans h (Nat.le_antisymm h.le hji), hahead⟩

/-- Every token under a rule is a terminal of the grammar. -/
theorem mem_terminals_of_spans {α : List κ} {i j : Nat} (h : Spans g ts α i j) :
    (∀ s ∈ α, g.isNonterminal s = false → s ∈ g.terminals) →
      ∀ m, i ≤ m → m < j → ∀ t, ts[m]? = some t → t.kind ∈ g.terminals := by
  induction h with
  | nil i => intro _ m _ _; omega
  | @terminal t rest i j ht hn _ ih =>
    intro hα m him hmj t' ht'
    rcases Nat.eq_or_lt_of_le him with rfl | hlt
    · rw [ht] at ht'
      cases ht'
      exact hα _ (by simp) hn
    · exact ih (fun s hs => hα s (by simp [hs])) m hlt hmj t' ht'
  | @nonterminal r rest i k j hr hrest ih₁ ih₂ =>
    intro hα m him hmj t ht
    rcases Nat.lt_or_ge m k with hmk | hkm
    · exact ih₁ (fun s hs hn => mem_terminals.mpr ⟨hn, r, hs⟩) m him hmk t ht
    · exact ih₂ (fun s hs => hα s (by simp [hs])) m hkm hmj t ht

end IrafCl.Grammar
