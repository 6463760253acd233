import IrafCl.Proofs.Grammar.First
import Mathlib.Algebra.Order.BigOperators.Group.List
import Mathlib.Algebra.Order.Ring.Nat
import Mathlib.Data.List.Dedup

/-!
# The tables are least

The tables of a grammar are the least sets that the rules are closed under (`closed_tables`,
`Closed.least`), and the steps that reach them have come to rest (`nullableStep_nullable`,
`firstStep_firstSets`).

It does not matter in which steps they are reached. When every rule works in place, so that it finds what the
rules before it have added, and passes over the rules are made until no set has grown, then the passes end, with
the same sets (`exists_findsOut`, `FindsOut.exact`). For what is found in between is right (`Findings.Sound`), so
there is only so much to find, and where nothing is found any more, the sets are closed (`closed_of_size_eq`).
-/

namespace IrafCl.Grammar

variable {κ : Type} [DecidableEq κ]

/-- Taking a step again and again for as long as it changes something ends with a result. -/
inductive Settles {α : Type} (step : α → α) : α → α → Prop where
  | rest {a : α} (h : step a = a) : Settles step a a
  | again {a b : α} (h : step a ≠ a) (hrest : Settles step (step a) b) : Settles step a b

/-- Sets to which one more pass over the rules adds nothing. -/
structure Closed (g : Grammar κ) (known : List κ) (sets : FirstSets κ) : Prop where
  nullable : ∀ r, (∀ x ∈ (g.rule r).rhs, x ∈ known) → (g.rule r).lhs ∈ known
  first : ∀ r, g.sequenceFirst known sets (g.rule r).rhs ⊆ FirstSets.of sets (g.rule r).lhs

variable {g : Grammar κ} {s t : κ}

/-! ## The least closed sets -/

theorem firstSets_eq (g : Grammar κ) : g.firstSets = g.firstChain (g.rules.size + 1) := settle_eq_iterate _ _ _

theorem closed_tables (g : Grammar κ) : g.Closed g.nullable g.firstSets :=
  ⟨mem_nullable_of_rule, fun r _ ht => mem_firstSets_of_rule r ht⟩

theorem mem_of_mem_firstChain {known : List κ} {sets : FirstSets κ} (h : g.Closed known sets)
    (hknown : g.nullable ⊆ known) (n : Nat) :
    ∀ s t, t ∈ FirstSets.of (g.firstChain n) s → t ∈ FirstSets.of sets s := by
  induction n with
  | zero =>
    intro s t ht
    rw [firstChain_zero] at ht
    cases ht
  | succ n ih =>
    intro s t ht
    rcases (mem_firstChain_succ.mp ht).2 with hold | ⟨r, rfl, hrule⟩
    · exact ih s t hold
    · exact h.first r (mem_sequenceFirst_mono hknown (fun s => ih s t) hrule)

/-- All closed sets have what the tables have. -/
theorem Closed.least {known : List κ} {sets : FirstSets κ} (h : g.Closed known sets) :
    g.nullable ⊆ known ∧ ∀ s, FirstSets.of g.firstSets s ⊆ FirstSets.of sets s := by
  have hknown : g.nullable ⊆ known := fun s hs => nullable_induction (P := (· ∈ known)) h.nullable hs
  refine ⟨hknown, fun s t ht => ?_⟩
  rw [firstSets_eq] at ht
  exact mem_of_mem_firstChain h hknown _ s t ht

/-! ## The steps come to rest -/

/-- Steps that were allowed in sufficient number are all that there are. -/
theorem settles_settle {α : Type} [DecidableEq α] {step : α → α} (n : Nat) (a : α)
    (h : step (settle step n a) = settle step n a) : Settles step a (settle step n a) := by
  induction n generalizing a with
  | zero => exact .rest h
  | succ n ih =>
    unfold settle at h ⊢
    split
    · next ha => exact .rest ha
    · next ha =>
      rw [if_neg ha] at h
      exact .again ha (ih (step a) h)

theorem nullableStep_nullable (g : Grammar κ) : g.nullableStep g.nullable = g.nullable := by
  have hlast : g.nullable = g.nullableStep (g.nullableStep^[g.rules.size] []) := by
    rw [← iterate_nullableStep_succ, nullable, settle_eq_iterate]
  have hmem : ∀ s, s ∈ g.nullableStep g.nullable ↔ s ∈ g.nullable := by
    intro s
    refine ⟨fun hs => ?_, fun hs => ?_⟩
    · obtain ⟨r, rfl, hr⟩ := mem_nullableStep.mp hs
      exact mem_nullable_of_rule r hr
    · rw [hlast] at hs ⊢
      refine nullableStep_mono ?_ hs
      rw [← iterate_nullableStep_succ]
      exact iterate_nullableStep_subset _
  -- both are made by leaving out some of the nonterminals
  rw [hlast] at hmem ⊢
  refine List.filter_congr fun s hs => Bool.eq_iff_iff.mpr ?_
  have h := hmem s
  simpa only [nullableStep, List.mem_filter, hs, true_and] using h

theorem union_eq_left {a b : List κ} (h : b ⊆ a) : union a b = a := by
  have hnone : b.filter (fun x => !a.contains x) = [] := by
    rw [List.filter_eq_nil_iff]
    intro x hx
    simpa using h hx
  rw [union, hnone, List.append_nil]

theorem foldl_union_eq {rules : List (Rule κ)} {f : Rule κ → List κ} {set : List κ}
    (h : ∀ r ∈ rules, r.lhs = s → f r ⊆ set) :
    rules.foldl (fun set r => if r.lhs = s then union set (f r).eraseDups else set) set = set := by
  induction rules with
  | nil => rfl
  | cons r rules ih =>
    have hfirst : (if r.lhs = s then union set (f r).eraseDups else set) = set := by
      split
      · next hr => exact union_eq_left fun x hx => h r (by simp) hr (List.mem_eraseDups.mp hx)
      · rfl
    rw [List.foldl_cons, hfirst]
    exact ih fun r hr => h r (by simp [hr])

/-- A table with one row for each nonterminal keeps its shape in a step, and every row grows by itself. -/
theorem firstStep_map {known : List κ} {sets : FirstSets κ} {f : κ → List κ}
    (h : sets = g.nonterminals.map fun s => (s, f s)) :
    g.firstStep known sets = g.nonterminals.map fun s => (s, g.rules.foldl (fun set r =>
      if r.lhs = s then union set (g.sequenceFirst known sets r.rhs).eraseDups else set) (f s)) := by
  refine (congrArg (List.map _) h).trans ?_
  rw [List.map_map]
  rfl

theorem exists_firstChain_eq_map (n : Nat) : ∃ f : κ → List κ, g.firstChain n = g.nonterminals.map fun s => (s, f s) := by
  induction n with
  | zero => exact ⟨fun _ => [], rfl⟩
  | succ n ih =>
    obtain ⟨f, hf⟩ := ih
    rw [firstChain_succ]
    exact ⟨_, firstStep_map hf⟩

theorem FirstSets.of_rows (l : List κ) (f : κ → List κ) (hs : s ∈ l) :
    FirstSets.of (l.map fun s => (s, f s)) s = f s := by
  have h := FirstSets.of_map (l.map fun s => (s, ([] : List κ))) (fun s _ => f s) s
  rw [List.map_map, List.map_map, if_pos (by simpa using hs)] at h
  exact h

theorem firstStep_firstSets (g : Grammar κ) : g.firstStep g.nullable g.firstSets = g.firstSets := by
  obtain ⟨f, hf⟩ := @exists_firstChain_eq_map κ _ g (g.rules.size + 1)
  rw [← firstSets_eq] at hf
  rw [firstStep_map hf]
  conv_rhs => rw [hf]
  refine List.map_congr_left fun s hs => ?_
  have hof : FirstSets.of g.firstSets s = f s := by
    conv_lhs => rw [hf]
    exact FirstSets.of_rows _ f hs
  rw [← Array.foldl_toList, foldl_union_eq]
  intro r hr hlhs
  obtain ⟨i, rfl⟩ := exists_index (Array.mem_toList_iff.mp hr)
  rw [← hof, ← hlhs]
  exact (closed_tables g).first i

/-! ## Finding out in place -/

/-- What has been found out about the symbols: which of them vanish, and the terminals that each begins with. -/
structure Findings (κ : Type) where
  vanishing : List κ
  first : κ → List κ

namespace Findings

def nothing : Findings κ := ⟨[], fun _ => []⟩

def table (known : Findings κ) (g : Grammar κ) : FirstSets κ := g.nonterminals.map fun s => (s, known.first s)

def size (known : Findings κ) (g : Grammar κ) : Nat :=
  known.vanishing.length + (g.nonterminals.map fun s => (known.first s).length).sum

end Findings

/-- A rule adds to the set of its nonterminal what its symbols begin with, and the empty string if all of them
vanish. -/
def note (g : Grammar κ) (known : Findings κ) (r : g.Index) : Findings κ where
  vanishing :=
    if ∀ x ∈ (g.rule r).rhs, x ∈ known.vanishing then union known.vanishing [(g.rule r).lhs] else known.vanishing
  first := Function.update known.first (g.rule r).lhs
    (union (known.first (g.rule r).lhs) (g.sequenceFirst known.vanishing (known.table g) (g.rule r).rhs).dedup)

/-- All rules add in place, in order. -/
def pass (g : Grammar κ) (known : Findings κ) : Findings κ := g.indices.foldl g.note known

/-- Passes are made until no set has grown in one. -/
inductive FindsOut (g : Grammar κ) : Findings κ → Findings κ → Prop where
  | done {known : Findings κ} (h : (g.pass known).size g = known.size g) : FindsOut g known (g.pass known)
  | again {known found : Findings κ} (h : (g.pass known).size g ≠ known.size g)
      (hrest : FindsOut g (g.pass known) found) : FindsOut g known found

variable {known found : Findings κ}

theorem mem_table : t ∈ FirstSets.of (known.table g) s ↔ g.isNonterminal s = true ∧ t ∈ known.first s := by
  by_cases hs : s ∈ g.nonterminals
  · rw [Findings.table, FirstSets.of_rows _ _ hs, and_iff_right (mem_nonterminals.mp hs)]
  · have hof := FirstSets.of_map (known.table g) (fun _ set => set) s
    simp only [Findings.table, List.map_map, Function.comp_def, List.map_id', if_neg hs] at hof
    rw [Findings.table, hof]
    simp [← mem_nonterminals, hs]

namespace Findings

/-- What is found is right, and nothing is found twice. -/
structure Sound (g : Grammar κ) (known : Findings κ) : Prop where
  vanishing_nodup : known.vanishing.Nodup
  vanishing : known.vanishing ⊆ g.nullable
  first_nodup : ∀ s, (known.first s).Nodup
  first : ∀ s, known.first s ⊆ FirstSets.of g.firstSets s

/-- Findings are added at the end. -/
structure Grows (known found : Findings κ) : Prop where
  vanishing : known.vanishing <+: found.vanishing
  first : ∀ s, known.first s <+: found.first s

omit [DecidableEq κ] in
theorem Grows.refl (known : Findings κ) : known.Grows known := ⟨List.prefix_rfl, fun _ => List.prefix_rfl⟩

omit [DecidableEq κ] in
theorem Grows.trans {a b c : Findings κ} (h₁ : a.Grows b) (h₂ : b.Grows c) : a.Grows c :=
  ⟨h₁.vanishing.trans h₂.vanishing, fun s => (h₁.first s).trans (h₂.first s)⟩

theorem Grows.size_le (h : known.Grows found) (g : Grammar κ) : known.size g ≤ found.size g :=
  Nat.add_le_add h.vanishing.length_le (List.sum_le_sum fun s _ => (h.first s).length_le)

/-- What has grown to the same size is the same. -/
theorem Grows.eq_of_size_eq (h : known.Grows found) (hsize : found.size g = known.size g) :
    found.vanishing = known.vanishing ∧ found.table g = known.table g := by
  have hvanishing := h.vanishing.length_le
  have hfirst := fun s => (h.first s).length_le
  have hsum := List.sum_le_sum fun s (_ : s ∈ g.nonterminals) => hfirst s
  rw [size, size] at hsize
  refine ⟨(h.vanishing.eq_of_length (by omega)).symm, List.map_congr_left fun s hs => ?_⟩
  by_cases hlt : (known.first s).length < (found.first s).length
  · have hless := List.sum_lt_sum (l := g.nonterminals) (fun s => (known.first s).length)
      (fun s => (found.first s).length) (fun s _ => hfirst s) ⟨s, hs, hlt⟩
    omega
  · rw [(h.first s).eq_of_length (Nat.le_antisymm (hfirst s) (Nat.not_lt.mp hlt))]

/-- There is only so much to find. -/
theorem Sound.size_le (h : Sound g known) :
    known.size g ≤ g.nullable.length + (g.nonterminals.map fun s => (FirstSets.of g.firstSets s).length).sum :=
  Nat.add_le_add (h.vanishing_nodup.length_le_of_subset h.vanishing)
    (List.sum_le_sum fun s _ => (h.first_nodup s).length_le_of_subset (h.first s))

theorem sound_nothing : Sound g nothing :=
  ⟨List.nodup_nil, List.nil_subset _, fun _ => List.nodup_nil, fun _ => List.nil_subset _⟩

end Findings

theorem prefix_union (a b : List κ) : a <+: union a b := List.prefix_append _ _

theorem nodup_union {a b : List κ} (ha : a.Nodup) (hb : b.Nodup) : (union a b).Nodup := by
  refine List.nodup_append.mpr ⟨ha, hb.filter _, ?_⟩
  rintro x hx y hy rfl
  simp [hx] at hy

theorem note_first_lhs (known : Findings κ) (r : g.Index) : (g.note known r).first (g.rule r).lhs =
    union (known.first (g.rule r).lhs) (g.sequenceFirst known.vanishing (known.table g) (g.rule r).rhs).dedup :=
  Function.update_self ..

theorem note_first_of_ne {r : g.Index} (h : s ≠ (g.rule r).lhs) : (g.note known r).first s = known.first s :=
  Function.update_of_ne h ..

theorem note_vanishing_of_forall {r : g.Index} (h : ∀ x ∈ (g.rule r).rhs, x ∈ known.vanishing) :
    (g.note known r).vanishing = union known.vanishing [(g.rule r).lhs] := if_pos h

theorem note_vanishing_of_not {r : g.Index} (h : ¬ ∀ x ∈ (g.rule r).rhs, x ∈ known.vanishing) :
    (g.note known r).vanishing = known.vanishing := if_neg h

/-- A rule finds what is right. -/
theorem sound_note (h : known.Sound g) (r : g.Index) : (g.note known r).Sound g := by
  have hvanishing : (g.note known r).vanishing.Nodup ∧ (g.note known r).vanishing ⊆ g.nullable := by
    by_cases hall : ∀ x ∈ (g.rule r).rhs, x ∈ known.vanishing
    · rw [note_vanishing_of_forall hall]
      refine ⟨nodup_union h.vanishing_nodup (List.nodup_singleton _), fun x hx => ?_⟩
      rcases mem_union.mp hx with hx | hx
      · exact h.vanishing hx
      · rw [List.mem_singleton.mp hx]
        exact mem_nullable_of_rule r fun y hy => h.vanishing (hall y hy)
    · rw [note_vanishing_of_not hall]
      exact ⟨h.vanishing_nodup, h.vanishing⟩
  have hfirst : ∀ s, ((g.note known r).first s).Nodup ∧ (g.note known r).first s ⊆ FirstSets.of g.firstSets s := by
    intro s
    by_cases hs : s = (g.rule r).lhs
    · subst hs
      rw [note_first_lhs]
      refine ⟨nodup_union (h.first_nodup _) (List.nodup_dedup _), fun t ht => ?_⟩
      rcases mem_union.mp ht with ht | ht
      · exact h.first _ ht
      · exact mem_firstSets_of_rule r (mem_sequenceFirst_mono h.vanishing
          (fun x hx => h.first x (mem_table.mp hx).2) (List.mem_dedup.mp ht))
    · rw [note_first_of_ne hs]
      exact ⟨h.first_nodup s, h.first s⟩
  exact ⟨hvanishing.1, hvanishing.2, fun s => (hfirst s).1, fun s => (hfirst s).2⟩

theorem grows_note (known : Findings κ) (r : g.Index) : known.Grows (g.note known r) := by
  refine ⟨?_, fun s => ?_⟩
  · by_cases hall : ∀ x ∈ (g.rule r).rhs, x ∈ known.vanishing
    · rw [note_vanishing_of_forall hall]
      exact prefix_union _ _
    · rw [note_vanishing_of_not hall]
  · by_cases hs : s = (g.rule r).lhs
    · subst hs
      rw [note_first_lhs]
      exact prefix_union _ _
    · rw [note_first_of_ne hs]

theorem grows_foldl (l : List g.Index) (known : Findings κ) : known.Grows (l.foldl g.note known) := by
  induction l generalizing known with
  | nil => exact .refl known
  | cons r l ih => exact (grows_note known r).trans (ih _)

theorem sound_foldl (l : List g.Index) (h : known.Sound g) : (l.foldl g.note known).Sound g := by
  induction l generalizing known with
  | nil => exact h
  | cons r l ih => exact ih (sound_note h r)

theorem sound_pass (h : known.Sound g) : (g.pass known).Sound g := sound_foldl _ h

theorem grows_pass (g : Grammar κ) (known : Findings κ) : known.Grows (g.pass known) := grows_foldl _ _

/-- Where a pass finds nothing, no rule does. -/
theorem note_of_size_eq (h : (g.pass known).size g = known.size g) (r : g.Index) :
    ∃ before : Findings κ, before.vanishing = known.vanishing ∧ before.table g = known.table g ∧
      (g.note before r).vanishing = known.vanishing ∧ (g.note before r).table g = known.table g := by
  obtain ⟨l, l', hl⟩ := List.append_of_mem (mem_indices r)
  have hbefore := grows_foldl l known
  have hnote := grows_note (l.foldl g.note known) r
  have hafter := grows_foldl l' (g.note (l.foldl g.note known) r)
  have hpass : g.pass known = l'.foldl g.note (g.note (l.foldl g.note known) r) := by
    rw [pass, hl, List.foldl_append, List.foldl_cons]
  rw [hpass] at h
  have h₁ := hbefore.size_le g
  have h₂ := hnote.size_le g
  have h₃ := hafter.size_le g
  obtain ⟨hv, ht⟩ := hbefore.eq_of_size_eq (g := g) (by omega)
  obtain ⟨hv', ht'⟩ := (hbefore.trans hnote).eq_of_size_eq (g := g) (by omega)
  exact ⟨_, hv, ht, hv', ht'⟩

/-- Where a pass finds nothing, the sets are closed. -/
theorem closed_of_size_eq (h : (g.pass known).size g = known.size g) :
    g.Closed known.vanishing (known.table g) := by
  refine ⟨fun r hall => ?_, fun r t ht => ?_⟩
  · obtain ⟨before, hv, -, hv', -⟩ := note_of_size_eq h r
    rw [← hv] at hall
    rw [← hv', note_vanishing_of_forall hall]
    exact mem_union.mpr (.inr (List.mem_singleton.mpr rfl))
  · obtain ⟨before, hv, htable, -, htable'⟩ := note_of_size_eq h r
    rw [← hv, ← htable] at ht
    rw [← htable', mem_table, note_first_lhs]
    exact ⟨isNonterminal_lhs r, mem_union.mpr (.inr (List.mem_dedup.mpr ht))⟩

/-- The passes end. -/
theorem exists_findsOut {known : Findings κ} (h : known.Sound g) : ∃ found, g.FindsOut known found := by
  by_cases hsize : (g.pass known).size g = known.size g
  · exact ⟨_, .done hsize⟩
  · have hle := (sound_pass h).size_le
    have hgrows := (grows_pass g known).size_le g
    obtain ⟨found, hfound⟩ := exists_findsOut (sound_pass h)
    exact ⟨found, .again hsize hfound⟩
termination_by
  g.nullable.length + (g.nonterminals.map fun s => (FirstSets.of g.firstSets s).length).sum - known.size g
decreasing_by omega

/-- What the passes end with is what the tables have. -/
theorem FindsOut.exact (h : g.FindsOut known found) (hsound : known.Sound g) :
    (∀ s, s ∈ found.vanishing ↔ s ∈ g.nullable) ∧
      ∀ s, g.isNonterminal s = true → ∀ t, t ∈ found.first s ↔ t ∈ FirstSets.of g.firstSets s := by
  induction h with
  | @done known hsize =>
    obtain ⟨hvanishing, hfirst⟩ := (closed_of_size_eq hsize).least
    obtain ⟨hv, htable⟩ := (grows_pass g known).eq_of_size_eq hsize
    rw [← hv] at hvanishing
    rw [← htable] at hfirst
    have hpass := sound_pass hsound
    exact ⟨fun s => ⟨fun hs => hpass.vanishing hs, fun hs => hvanishing hs⟩,
      fun s _ t => ⟨fun ht => hpass.first s ht, fun ht => (mem_table.mp (hfirst s ht)).2⟩⟩
  | again _ _ ih => exact ih (sound_pass hsound)

end IrafCl.Grammar
