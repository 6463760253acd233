import IrafCl.Proofs.Tree

/-!
# What may come next

Tables of a grammar tell which symbols may stand for nothing, which terminals a symbol begins with, and
what may come after it: the next terminal, and for some of these the one behind it. The tables need not be
the least ones; it is enough that the rules keep to them (`Outlook.Sound`). Then they hold of every
derivation: where a rule derives the tokens on both sides of a symbol, the tokens behind it are among
those that follow it (`Sound.holds_follows`).

Sets of terminals are numbers, with a bit for each terminal.
-/

namespace IrafCl

variable {κ : Type}

/-- What is known of the next tokens: a set that the first one is in, and for some terminals a set for the
token behind them. -/
structure Glimpse (κ : Type) where
  first : Nat
  second : List (κ × Nat)

/-- Tables of what may come next. -/
structure Outlook (κ : Type) where
  /-- the bit of a terminal -/
  bit : κ → Nat
  /-- whether a symbol has rules -/
  inner : κ → Bool
  vanishes : κ → Bool
  /-- whether a symbol has an empty rule -/
  blank : κ → Bool
  begins : κ → Nat
  follows : κ → Glimpse κ

namespace Outlook

variable (o : Outlook κ)

def has (set : Nat) (s : κ) : Bool := set.testBit (o.bit s)

/-- The set of one terminal. -/
def only (s : κ) : Nat := 2 ^ o.bit s

/-- Whether a set is part of another one. -/
def within (a b : Nat) : Bool := a &&& b == a

/-- What some symbols begin with, where `last` comes after them. -/
def heads (last : Nat) : List κ → Nat
  | [] => last
  | s :: rest => if o.vanishes s then o.begins s ||| heads last rest else o.begins s

/-- What the symbols of a rule begin with, those after the rule included. -/
def ahead (lhs : κ) (rest : List κ) : Nat := o.heads (o.follows lhs).first rest

variable [DecidableEq κ]

/-- Whether the last symbols of a rule allow only tokens of a set behind a terminal that they begin with. -/
def guards (lhs t : κ) (set : Nat) : List κ → Bool
  | [] => !o.has (o.follows lhs).first t || (o.follows lhs).second.any fun (s, m) => s = t && within m set
  | s :: rest =>
    (if s = t then within (o.ahead lhs rest) set else !o.has (o.begins s) t) &&
      (!o.vanishes s || guards lhs t set rest)

/-- Whether what comes after each symbol of a rule is among what follows it. -/
def admits (lhs : κ) : List κ → Bool
  | [] => true
  | s :: rest =>
    (!o.inner s || (within (o.ahead lhs rest) (o.follows s).first &&
      (o.follows s).second.all fun (t, set) => o.guards lhs t set rest)) && admits lhs rest

/-- The rules of a grammar keep to the tables. -/
structure Sound (g : Grammar κ) : Prop where
  bit_inj : ∀ s t, o.bit s = o.bit t → s = t
  inner : ∀ r, ∀ s ∈ (g.rule r).rhs, o.inner s = g.isNonterminal s
  vanishes : ∀ r, (∀ s ∈ (g.rule r).rhs, o.vanishes s = true) → o.vanishes (g.rule r).lhs = true
  blank : ∀ r, (g.rule r).rhs = [] → o.blank (g.rule r).lhs = true
  blank_unique : ∀ r r', (g.rule r).rhs = [] → (g.rule r').rhs = [] → (g.rule r).lhs = (g.rule r').lhs → r = r'
  terminal : ∀ s, g.isNonterminal s = false → o.has (o.begins s) s = true
  begins : ∀ r, within (o.heads 0 (g.rule r).rhs) (o.begins (g.rule r).lhs) = true
  follows : ∀ r, o.admits (g.rule r).lhs (g.rule r).rhs = true

end Outlook

/-- The next tokens are as known. -/
def Glimpse.Holds (o : Outlook κ) (v : Glimpse κ) (ts : List (Token κ)) : Prop :=
  ∃ t us, ts = t :: us ∧ o.has v.first t.kind = true ∧
    ∀ s set, (s, set) ∈ v.second → s = t.kind → ∃ u ∈ us.head?, o.has set u.kind = true

namespace Outlook

variable {g : Grammar κ} {o : Outlook κ}

/-! ## Sets of terminals -/

theorem has_or {a b : Nat} {s : κ} : o.has (a ||| b) s = true ↔ o.has a s = true ∨ o.has b s = true := by
  rw [has, Nat.testBit_or, Bool.or_eq_true, has, has]

theorem has_and {a b : Nat} {s : κ} : o.has (a &&& b) s = true ↔ o.has a s = true ∧ o.has b s = true := by
  rw [has, Nat.testBit_and, Bool.and_eq_true, has, has]

theorem not_has_zero (s : κ) : ¬ o.has 0 s = true := by
  simp [has]

theorem has_only {s t : κ} : o.has (o.only s) t = true ↔ o.bit s = o.bit t := by
  rw [has, only, Nat.testBit_two_pow, decide_eq_true_eq]

theorem has_of_within {a b : Nat} (h : within a b = true) {s : κ} (hs : o.has a s = true) : o.has b s = true := by
  rw [← eq_of_beq h] at hs
  exact (has_and.mp hs).2

/-! ## Derivations -/

/-- What derivations in a row begin with is among the heads of their symbols, if each begins as its symbol
does. -/
theorem has_heads (last : Nat) (ts : List (Token κ)) {ds : List (Derivation g)}
    (hds : ∀ d ∈ ds, (d.yield = [] → o.vanishes d.symbol = true) ∧
      ∀ t ∈ d.yield.head?, o.has (o.begins d.symbol) t.kind = true)
    (hts : ∀ t ∈ ts.head?, o.has last t.kind = true) :
    ∀ t ∈ (Derivation.yieldAll ds ++ ts).head?, o.has (o.heads last (ds.map Derivation.symbol)) t.kind = true := by
  induction ds with
  | nil => exact hts
  | cons d ds ih =>
    intro t ht
    obtain ⟨hempty, hfirst⟩ := hds d (by simp)
    have hrest := ih fun d hd => hds d (by simp [hd])
    rw [List.map_cons, heads]
    rw [Derivation.yieldAll, List.append_assoc] at ht
    cases hyield : d.yield with
    | nil =>
      rw [hyield, List.nil_append] at ht
      rw [if_pos (hempty hyield)]
      exact has_or.mpr (.inr (hrest t ht))
    | cons u us =>
      rw [hyield] at ht hfirst
      have hbegins := hfirst t ht
      split
      · exact has_or.mpr (.inl hbegins)
      · exact hbegins

variable [DecidableEq κ]

/-- A derivation begins as its symbol does, and is empty only if the symbol may vanish. -/
theorem Sound.begins_yield (ho : o.Sound g) {d : Derivation g} (hd : d.Valid) :
    (d.yield = [] → o.vanishes d.symbol = true) ∧ ∀ t ∈ d.yield.head?, o.has (o.begins d.symbol) t.kind = true := by
  induction hd with
  | token t hn =>
    refine ⟨nofun, fun u hu => ?_⟩
    obtain rfl : t = u := by simpa [Derivation.yield] using hu
    exact ho.terminal t.kind hn
  | node r ds hrhs hds ih =>
    refine ⟨fun hempty => ho.vanishes r fun s hs => ?_, fun t ht => ?_⟩
    · rw [← hrhs] at hs
      obtain ⟨d, hd, rfl⟩ := List.mem_map.mp hs
      refine (ih d hd).1 ?_
      rw [Derivation.yield, Derivation.yieldAll_eq_flatMap, List.flatMap_eq_nil_iff] at hempty
      exact hempty d hd
    · have h := has_heads 0 [] ih (by simp) t (by rwa [List.append_nil])
      rw [hrhs] at h
      exact has_of_within (ho.begins r) h

/-- The tokens are derived by the last symbols of a rule, up to some that follow the rule. -/
def Expects (o : Outlook κ) (g : Grammar κ) (lhs : κ) (rest : List κ) (ts : List (Token κ)) : Prop :=
  ∃ (ds : List (Derivation g)) (after : List (Token κ)), (∀ d ∈ ds, d.Valid) ∧ ds.map Derivation.symbol = rest ∧
    ts = Derivation.yieldAll ds ++ after ∧ (o.follows lhs).Holds o after

theorem Expects.head (ho : o.Sound g) {lhs : κ} {rest : List κ} {ts : List (Token κ)}
    (h : o.Expects g lhs rest ts) : ∃ t us, ts = t :: us ∧ o.has (o.ahead lhs rest) t.kind = true := by
  obtain ⟨ds, after, hds, rfl, rfl, a, as, rfl, ha, -⟩ := h
  have hheads := has_heads (o.follows lhs).first (a :: as) (fun d hd => ho.begins_yield (hds d hd)) (by simpa using ha)
  cases hts : Derivation.yieldAll ds ++ a :: as with
  | nil => simp at hts
  | cons t us =>
    rw [hts] at hheads
    exact ⟨t, us, rfl, hheads t rfl⟩

/-- Behind a guarded terminal comes a token of the set. -/
theorem Expects.second (ho : o.Sound g) {lhs t : κ} {set : Nat} {rest : List κ} {u : Token κ} {us : List (Token κ)}
    (hguards : o.guards lhs t set rest = true) (h : o.Expects g lhs rest (u :: us)) (hu : t = u.kind) :
    ∃ v ∈ us.head?, o.has set v.kind = true := by
  obtain ⟨ds, after, hds, rfl, heq, hafter⟩ := h
  induction ds with
  | nil =>
    obtain ⟨a, as, rfl, ha, hsecond⟩ := hafter
    obtain ⟨rfl, rfl⟩ := List.cons.inj heq
    subst hu
    simp only [List.map_nil, guards, ha, Bool.not_true, Bool.false_or, List.any_eq_true, Bool.and_eq_true,
      decide_eq_true_eq] at hguards
    obtain ⟨⟨s, m⟩, hmem, hs, hwithin⟩ := hguards
    obtain ⟨v, hv, hm⟩ := hsecond s m hmem hs
    exact ⟨v, hv, has_of_within hwithin hm⟩
  | cons d ds ih =>
    have hd := hds d (by simp)
    have hrest : ∀ d ∈ ds, d.Valid := fun d hd => hds d (by simp [hd])
    simp only [List.map_cons, guards, Bool.and_eq_true, Bool.or_eq_true, Bool.not_eq_true'] at hguards
    obtain ⟨hhead, htail⟩ := hguards
    obtain ⟨hempty, hfirst⟩ := ho.begins_yield hd
    rw [Derivation.yieldAll, List.append_assoc] at heq
    cases hyield : d.yield with
    | nil =>
      rw [hyield, List.nil_append] at heq
      refine ih hrest (htail.resolve_left ?_) heq
      simp [hempty hyield]
    | cons w ws =>
      rw [hyield, List.cons_append] at heq
      rw [hyield] at hfirst
      obtain ⟨rfl, rfl⟩ := List.cons.inj heq
      have hbegins := hfirst u rfl
      split at hhead
      · next hsymbol =>
        -- the terminal is derived by itself, so the second token is a head of what comes after
        have hterminal := Derivation.terminal_of_mem_yield hd u (by simp [hyield])
        obtain ⟨a, rfl⟩ := Derivation.eq_token hd (by rw [hsymbol, hu]; exact hterminal)
        obtain ⟨rfl, rfl⟩ : a = u ∧ [] = ws := by simpa [Derivation.yield] using hyield
        obtain ⟨v, vs, hvs, hv⟩ := Expects.head ho ⟨ds, after, hrest, rfl, rfl, hafter⟩
        rw [List.nil_append, hvs]
        exact ⟨v, rfl, has_of_within hhead hv⟩
      · rw [← hu] at hbegins
        simp [hbegins] at hhead

/-- What comes after a symbol of a rule follows the symbol. -/
theorem Sound.holds_follows (ho : o.Sound g) {r : g.Index} {α β : List κ} {s : κ} {ts : List (Token κ)}
    (hrhs : (g.rule r).rhs = α ++ s :: β) (hs : g.isNonterminal s = true) (h : o.Expects g (g.rule r).lhs β ts) :
    (o.follows s).Holds o ts := by
  have hadmits : within (o.ahead (g.rule r).lhs β) (o.follows s).first = true ∧
      ∀ t set, (t, set) ∈ (o.follows s).second → o.guards (g.rule r).lhs t set β = true := by
    have hall := ho.follows r
    have hinner := ho.inner r s (by simp [hrhs])
    rw [hrhs] at hall
    clear hrhs
    induction α with
    | nil =>
      simp only [List.nil_append, admits, hinner, hs, Bool.not_true, Bool.false_or, Bool.and_eq_true,
        List.all_eq_true] at hall
      exact ⟨hall.1.1, fun t set hmem => hall.1.2 (t, set) hmem⟩
    | cons a α ih =>
      rw [List.cons_append, admits, Bool.and_eq_true] at hall
      exact ih hall.2
  obtain ⟨t, us, rfl, ht⟩ := h.head ho
  exact ⟨t, us, rfl, has_of_within hadmits.1 ht, fun s' set hmem heq => h.second ho (hadmits.2 s' set hmem) heq⟩

end Outlook

end IrafCl
