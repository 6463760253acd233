import IrafCl.Proofs.Grammar.Beginnings

/-!
# Cycles

A symbol that derives itself alone does so by rules in which everything else vanishes. In terms of derivations
that is a symbol which derives itself in at least one step (`acyclic_iff`). Over a word, the rules of such a
cycle turn one into the next (`Turns`), and a reading that prefers short rules keeps to the cycle where no other
rule in the place of the next one is shorter (`ShortTurns`).
-/

namespace IrafCl.Grammar

variable {κ : Type} [DecidableEq κ] {g : Grammar κ} {α β w : List κ} {a b s x : κ}

/-! ## One symbol alone -/

/-- One of the symbols is left when all others vanish. -/
def LeavesOne (g : Grammar κ) (α : List κ) (x : κ) : Prop :=
  ∃ β γ, α = β ++ x :: γ ∧ (∀ y ∈ β, y ∈ g.nullable) ∧ ∀ y ∈ γ, y ∈ g.nullable

theorem unitStep_iff : g.UnitStep a b ↔ ∃ r, (g.rule r).lhs = a ∧ g.LeavesOne (g.rule r).rhs b := by
  constructor
  · rintro ⟨r, β, γ, hlhs, hrhs, hβ, hγ⟩
    exact ⟨r, hlhs, β, γ, hrhs, hβ, hγ⟩
  · rintro ⟨r, hlhs, β, γ, hrhs, hβ, hγ⟩
    exact ⟨r, β, γ, hlhs, hrhs, hβ, hγ⟩

theorem leavesOne_singleton : g.LeavesOne [s] x ↔ x = s := by
  constructor
  · rintro ⟨β, γ, h, -, -⟩
    rcases List.append_eq_singleton_iff.mp h.symm with ⟨-, h⟩ | ⟨-, h⟩
    · exact (List.cons_eq_cons.mp h).1
    · cases h
  · rintro rfl
    exact ⟨[], [], rfl, by simp, by simp⟩

theorem leavesOne_append : g.LeavesOne (α ++ β) x ↔
    (g.LeavesOne α x ∧ ∀ y ∈ β, y ∈ g.nullable) ∨ ((∀ y ∈ α, y ∈ g.nullable) ∧ g.LeavesOne β x) := by
  constructor
  · rintro ⟨δ, γ, h, hδ, hγ⟩
    rcases List.append_eq_append_iff.mp h with ⟨δ', rfl, rfl⟩ | ⟨γ', rfl, hsplit⟩
    · rw [List.forall_mem_append] at hδ
      exact .inr ⟨hδ.1, δ', γ, rfl, hδ.2, hγ⟩
    · cases γ' with
      | nil => exact .inr ⟨by simpa using hδ, [], γ, hsplit.symm, by simp, hγ⟩
      | cons y γ' =>
        rw [List.cons_append] at hsplit
        obtain ⟨rfl, rfl⟩ := List.cons_eq_cons.mp hsplit
        rw [List.forall_mem_append] at hγ
        exact .inl ⟨⟨δ, γ', rfl, hδ, hγ.1⟩, hγ.2⟩
  · rintro (⟨⟨δ, γ, rfl, hδ, hγ⟩, hβ⟩ | ⟨hα, δ, γ, rfl, hδ, hγ⟩)
    · exact ⟨δ, γ ++ β, by simp, hδ, List.forall_mem_append.mpr ⟨hγ, hβ⟩⟩
    · exact ⟨α ++ δ, γ, by simp, List.forall_mem_append.mpr ⟨hα, hδ⟩, hγ⟩

theorem LeavesOne.derives (h : g.LeavesOne α x) : g.contextFree.Derives (α.map g.symbol) [g.symbol x] := by
  obtain ⟨β, γ, rfl, hβ, hγ⟩ := h
  have hβ' : g.contextFree.Derives (β.map g.symbol) [] := vanishes_iff.mpr hβ
  have hγ' : g.contextFree.Derives (γ.map g.symbol) [] := vanishes_iff.mpr hγ
  rw [List.map_append, List.map_cons]
  exact (hβ'.append_right _).trans (hγ'.append_left [g.symbol x])

/-- A symbol that is left alone was derived from one symbol, by rules in which everything else vanishes. -/
theorem exists_leavesOne_of_derives {u : List (Symbol κ κ)} (h : g.contextFree.Derives u [.nonterminal b]) :
    ∀ {α : List κ}, u = α.map g.symbol → ∃ x, g.LeavesOne α x ∧ Relation.ReflTransGen g.UnitStep x b := by
  induction h using Relation.ReflTransGen.head_induction_on with
  | refl =>
    intro α hα
    obtain ⟨s, rfl, hs⟩ := List.map_eq_singleton_iff.mp hα.symm
    exact ⟨s, leavesOne_singleton.mpr rfl, by rw [symbol_eq_nonterminal hs]⟩
  | head hstep _ ih =>
    intro α hα
    subst hα
    obtain ⟨β, r, γ, rfl, rfl⟩ := exists_rule_of_produces hstep
    obtain ⟨x, hx, hsteps⟩ := ih rfl
    have hcons : β ++ (g.rule r).lhs :: γ = β ++ ([(g.rule r).lhs] ++ γ) := rfl
    rw [leavesOne_append, leavesOne_append] at hx
    rw [hcons]
    rcases hx with ⟨hβ, hnull⟩ | ⟨hβ, ⟨hr, hγ⟩ | ⟨hr, hγ⟩⟩
    · rw [List.forall_mem_append] at hnull
      refine ⟨x, leavesOne_append.mpr (.inl ⟨hβ, List.forall_mem_append.mpr ⟨?_, hnull.2⟩⟩), hsteps⟩
      simpa using mem_nullable_of_rule r hnull.1
    · refine ⟨(g.rule r).lhs, leavesOne_append.mpr (.inr ⟨hβ, leavesOne_append.mpr (.inl ⟨?_, hγ⟩)⟩), ?_⟩
      · exact leavesOne_singleton.mpr rfl
      · exact hsteps.head (unitStep_iff.mpr ⟨r, rfl, hr⟩)
    · refine ⟨x, leavesOne_append.mpr (.inr ⟨hβ, leavesOne_append.mpr (.inr ⟨?_, hγ⟩)⟩), hsteps⟩
      simpa using mem_nullable_of_rule r hr

theorem transGen_produces_of_unitSteps (h : Relation.TransGen g.UnitStep a b) :
    Relation.TransGen g.contextFree.Produces [.nonterminal a] [g.symbol b] := by
  have hstep : ∀ {a b}, g.UnitStep a b → Relation.TransGen g.contextFree.Produces [.nonterminal a] [g.symbol b] := by
    intro a b h
    obtain ⟨r, rfl, hr⟩ := unitStep_iff.mp h
    exact .head' ⟨_, mem_contextFree_rules.mpr ⟨r, rfl⟩, ContextFreeRule.Rewrites.input_output⟩ hr.derives
  induction h with
  | single h => exact hstep h
  | tail _ h ih =>
    obtain ⟨r, rfl, -⟩ := unitStep_iff.mp h
    rw [symbol_lhs] at ih
    exact ih.trans (hstep h)

/-- A grammar has no cycles if no symbol derives itself in one step or more. -/
theorem acyclic_iff : g.Acyclic ↔
    ∀ a, ¬ Relation.TransGen g.contextFree.Produces [.nonterminal a] [.nonterminal a] := by
  constructor
  · intro h a hcycle
    obtain ⟨u, ⟨rule, hrule, hrw⟩, hderives⟩ := Relation.TransGen.head'_iff.mp hcycle
    obtain ⟨r, rfl⟩ := mem_contextFree_rules.mp hrule
    obtain ⟨p, q, hparts, rfl⟩ := hrw.exists_parts
    have hsplit : p = [] ∧ q = [] ∧ a = (g.rule r).lhs := by
      rcases List.append_eq_singleton_iff.mp hparts.symm with ⟨hp, -⟩ | ⟨hp, hq⟩
      · simp at hp
      · rcases List.append_eq_singleton_iff.mp hp with ⟨hp, ha⟩ | ⟨-, ha⟩
        · exact ⟨hp, hq, by simpa using ha.symm⟩
        · cases ha
    obtain ⟨rfl, rfl, rfl⟩ := hsplit
    obtain ⟨x, hx, hsteps⟩ := exists_leavesOne_of_derives hderives (α := (g.rule r).rhs) (by simp)
    exact h _ (.head' (unitStep_iff.mpr ⟨r, rfl, hx⟩) hsteps)
  · intro h a hcycle
    obtain ⟨b, hstep, -⟩ := Relation.TransGen.head'_iff.mp hcycle
    obtain ⟨r, rfl, -⟩ := unitStep_iff.mp hstep
    have := transGen_produces_of_unitSteps hcycle
    rw [symbol_lhs] at this
    exact h _ this

/-! ## Grammars that go down -/

/-- A set that no rule leads out of has all nullable symbols. -/
theorem nullable_subset {known : List κ}
    (h : ∀ r, (∀ x ∈ (g.rule r).rhs, x ∈ known) → (g.rule r).lhs ∈ known) :
    g.nullable ⊆ known := fun _ hs => nullable_induction h hs

/-- A rule goes down to each symbol that is left when only vanishing symbols are removed. -/
def GoesDown (known : List κ) (height : κ → Nat) (r : Rule κ) : Prop :=
  ∀ i : Fin r.rhs.length, (∀ x ∈ r.rhs.eraseIdx i, x ∈ known) → height (r.rhs.get i) < height r.lhs

instance (known : List κ) (height : κ → Nat) (r : Rule κ) : Decidable (GoesDown known height r) :=
  inferInstanceAs (Decidable (∀ _ : Fin _, _))

/-- A grammar whose rules all go down has no cycles. -/
theorem acyclic_of_height (known : List κ) (height : κ → Nat)
    (hknown : ∀ r, (∀ x ∈ (g.rule r).rhs, x ∈ known) → (g.rule r).lhs ∈ known)
    (hdown : ∀ r, GoesDown known height (g.rule r)) : g.Acyclic := by
  have hstep : ∀ a b, g.UnitStep a b → height b < height a := by
    rintro a b ⟨r, α, β, rfl, hrhs, hα, hβ⟩
    have hnull := nullable_subset hknown
    have hlt : α.length < (g.rule r).rhs.length := by rw [hrhs]; simp
    have h := hdown r ⟨α.length, hlt⟩
    simp only [hrhs, List.get_eq_getElem, List.getElem_append_right (Nat.le_refl _), Nat.sub_self,
      List.getElem_cons_zero] at h
    refine h fun x hx => ?_
    rw [List.eraseIdx_append_of_length_le (Nat.le_refl _), Nat.sub_self, List.eraseIdx_cons_zero] at hx
    rcases List.mem_append.mp hx with hx | hx
    · exact hnull (hα x hx)
    · exact hnull (hβ x hx)
  have hchain : ∀ a b, Relation.TransGen g.UnitStep a b → height b < height a := by
    intro a b h
    induction h with
    | single h => exact hstep _ _ h
    | tail _ h ih => exact Nat.lt_trans (hstep _ _ h) ih
  intro a h
  exact Nat.lt_irrefl _ (hchain a a h)

/-! ## Rules that turn into one another -/

/-- Over a word, a rule turns into another one: behind some symbols stands that of the other, which derives the word by
it, and all else in the rule vanishes. -/
def TurnsAfter (g : Grammar κ) (w α : List κ) (r r' : g.Index) : Prop :=
  ∃ β, (g.rule r).rhs = α ++ (g.rule r').lhs :: β ∧ g.Vanishes α ∧ g.Vanishes β ∧
    g.DerivesWord (g.rule r').rhs w

def Turns (g : Grammar κ) (w : List κ) (r r' : g.Index) : Prop := ∃ α, g.TurnsAfter w α r r'

/-- A rule turns into another one, and in its place no rule of the symbol is shorter that derives an end of the word
where what stands before the symbol derives the rest. -/
def ShortTurns (g : Grammar κ) (w : List κ) (r r' : g.Index) : Prop :=
  ∃ α, g.TurnsAfter w α r r' ∧
    ∀ u v r'', w = u ++ v → g.DerivesWord α u → (g.rule r'').lhs = (g.rule r').lhs →
      g.DerivesWord (g.rule r'').rhs v →
      (g.rule r').rhs.length ≤ (g.rule r'').rhs.length

theorem Turns.unitStep {r r' : g.Index} (h : g.Turns w r r') : g.UnitStep (g.rule r).lhs (g.rule r').lhs := by
  obtain ⟨α, β, hrhs, hα, hβ, -⟩ := h
  exact ⟨r, α, β, rfl, hrhs, vanishes_iff.mp hα, vanishes_iff.mp hβ⟩

theorem ShortTurns.turns {r r' : g.Index} (h : g.ShortTurns w r r') : g.Turns w r r' := by
  obtain ⟨α, hturns, -⟩ := h
  exact ⟨α, hturns⟩

/-- The symbol of a rule that turns into itself derives itself. -/
theorem produces_of_turns {r : g.Index} (h : Relation.TransGen (g.Turns w) r r) :
    Relation.TransGen g.contextFree.Produces [.nonterminal (g.rule r).lhs] [.nonterminal (g.rule r).lhs] := by
  have hsteps : Relation.TransGen g.UnitStep (g.rule r).lhs (g.rule r).lhs :=
    h.lift (fun r => (g.rule r).lhs) fun _ _ => Turns.unitStep
  have hproduces := transGen_produces_of_unitSteps hsteps
  rwa [symbol_lhs] at hproduces

end IrafCl.Grammar
