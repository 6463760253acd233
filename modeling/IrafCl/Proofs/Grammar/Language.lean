import IrafCl.Grammar.Basic
import Mathlib.Computability.ContextFreeGrammar

/-!
# The language of a grammar

The rules of a grammar form a context-free grammar in the usual sense: the symbols with rules are its
nonterminals and all others its terminals. What it derives is also told by position: `Spans g ts α i j`
says that the symbols `α` derive the tokens of `ts` from position `i` up to position `j`. Spans are what
a chart is about, and `spans_iff_derives` says that they are derivations in the usual sense.
-/

namespace IrafCl.Grammar

variable {κ : Type}

theorem mem_indices {g : Grammar κ} (i : g.Index) : i ∈ g.indices := List.mem_finRange i

theorem mem_rules {g : Grammar κ} (r : g.Index) : g.rule r ∈ g.rules := Array.getElem_mem r.isLt

theorem exists_index {g : Grammar κ} {r : Rule κ} (h : r ∈ g.rules) : ∃ i, g.rule i = r := by
  obtain ⟨i, hi, rfl⟩ := Array.mem_iff_getElem.mp h
  exact ⟨⟨i, hi⟩, rfl⟩

section
variable {α : Type} {l : List α}

/-- The elements between two positions. -/
def between (l : List α) (i j : Nat) : List α := (l.drop i).take (j - i)

theorem between_self (l : List α) (i : Nat) : between l i i = [] := by
  simp [between]

theorem between_append {i k j : Nat} (hik : i ≤ k) (hkj : k ≤ j) :
    between l i k ++ between l k j = between l i j := by
  have hj : j - i = (k - i) + (j - k) := by omega
  have hd : l.drop k = (l.drop i).drop (k - i) := by rw [List.drop_drop]; congr 1; omega
  rw [between, between, between, hj, List.take_add, hd]

theorem between_succ {a : α} {i : Nat} (ha : l[i]? = some a) : between l i (i + 1) = [a] := by
  obtain ⟨hi, rfl⟩ := List.getElem?_eq_some_iff.mp ha
  rw [between, List.drop_eq_getElem_cons hi, Nat.add_sub_cancel_left, List.take_succ_cons, List.take_zero]

theorem between_length : between l 0 l.length = l := by
  simp [between]

theorem between_zero (l : List α) (j : Nat) : between l 0 j = l.take j := by
  rw [between, List.drop_zero, Nat.sub_zero]

theorem between_isInfix (l : List α) (i j : Nat) : between l i j <:+: l :=
  (List.take_prefix _ _).isInfix.trans (List.drop_suffix _ _).isInfix

/-- What lies between two positions is split at a position between them. -/
theorem between_eq_append {u v : List α} {i j : Nat} (hij : i ≤ j) (hj : j ≤ l.length) (h : between l i j = u ++ v) :
    i + u.length ≤ j ∧ between l i (i + u.length) = u ∧ between l (i + u.length) j = v := by
  have hlength := congrArg List.length h
  simp only [between, List.length_take, List.length_drop, List.length_append] at hlength
  have hle : i + u.length ≤ j := by omega
  have hparts := between_append (l := l) (Nat.le_add_right i u.length) hle
  rw [h] at hparts
  have hfront : (between l i (i + u.length)).length = u.length := by
    simp only [between, List.length_take, List.length_drop]
    omega
  exact ⟨hle, List.append_inj hparts hfront⟩

end

theorem kind_getElem? {ts : List (Token κ)} {t : Token κ} {i : Nat} (ht : ts[i]? = some t) :
    (ts.map (·.kind))[i]? = some t.kind := by
  rw [List.getElem?_map, ht, Option.map_some]

variable [DecidableEq κ]

/-- A symbol as a terminal or a nonterminal. -/
def symbol (g : Grammar κ) (s : κ) : Symbol κ κ :=
  if g.isNonterminal s then .nonterminal s else .terminal s

/-- The rules as a context-free grammar that starts from the left-hand side of the first rule. -/
abbrev contextFree (g : Grammar κ) : ContextFreeGrammar κ where
  NT := κ
  initial := (g.rule g.first).lhs
  rules := (g.indices.map fun i => ⟨(g.rule i).lhs, (g.rule i).rhs.map g.symbol⟩).toFinset

/-- The symbols derive the tokens from position `i` up to position `j`. -/
inductive Spans (g : Grammar κ) (ts : List (Token κ)) : List κ → Nat → Nat → Prop where
  | nil (i : Nat) : Spans g ts [] i i
  | terminal {t : Token κ} {rest : List κ} {i j : Nat} (ht : ts[i]? = some t)
      (hn : g.isNonterminal t.kind = false) (hrest : Spans g ts rest (i + 1) j) :
      Spans g ts (t.kind :: rest) i j
  | nonterminal (r : g.Index) {rest : List κ} {i k j : Nat} (hr : Spans g ts (g.rule r).rhs i k)
      (hrest : Spans g ts rest k j) : Spans g ts ((g.rule r).lhs :: rest) i j

variable {g : Grammar κ} {ts : List (Token κ)}

/-! ## Symbols -/

theorem isNonterminal_lhs (r : g.Index) : g.isNonterminal (g.rule r).lhs = true := by
  rw [isNonterminal, Array.any_eq_true]
  exact ⟨r, r.isLt, by simp [rule]⟩

theorem isNonterminal_iff {s : κ} : g.isNonterminal s = true ↔ ∃ r, (g.rule r).lhs = s := by
  constructor
  · intro h
    rw [isNonterminal, Array.any_eq_true] at h
    obtain ⟨i, hi, hs⟩ := h
    exact ⟨⟨i, hi⟩, by simpa [rule] using hs⟩
  · rintro ⟨r, rfl⟩
    exact isNonterminal_lhs r

theorem symbol_lhs (r : g.Index) : g.symbol (g.rule r).lhs = .nonterminal (g.rule r).lhs := by
  simp [symbol, isNonterminal_lhs]

theorem symbol_terminal {s : κ} (h : g.isNonterminal s = false) : g.symbol s = .terminal s := by
  simp [symbol, h]

/-- A symbol that shows as a terminal is one, and is itself. -/
theorem symbol_eq_terminal {s t : κ} (h : g.symbol s = .terminal t) : s = t ∧ g.isNonterminal t = false := by
  cases hs : g.isNonterminal s with
  | true => simp [symbol, hs] at h
  | false =>
    simp only [symbol, hs, Bool.false_eq_true, ↓reduceIte, Symbol.terminal.injEq] at h
    exact ⟨h, h ▸ hs⟩

theorem symbol_eq_nonterminal {s t : κ} (h : g.symbol s = .nonterminal t) : s = t := by
  cases hs : g.isNonterminal s with
  | true => simpa [symbol, hs] using h
  | false => simp [symbol, hs] at h

theorem mem_contextFree_rules {r : ContextFreeRule κ κ} :
    r ∈ g.contextFree.rules ↔ ∃ i, r = ⟨(g.rule i).lhs, (g.rule i).rhs.map g.symbol⟩ := by
  rw [List.mem_toFinset, List.mem_map]
  exact ⟨fun ⟨i, _, h⟩ => ⟨i, h.symm⟩, fun ⟨i, h⟩ => ⟨i, mem_indices i, h.symm⟩⟩

/-! ## Spans -/

theorem Spans.le {α : List κ} {i j : Nat} (h : Spans g ts α i j) : i ≤ j := by
  induction h with
  | nil i => exact Nat.le_refl i
  | terminal _ _ _ ih => omega
  | nonterminal _ _ _ ih₁ ih₂ => omega

/-- A span that is not empty ends inside the tokens. -/
theorem Spans.le_length {α : List κ} {i j : Nat} (h : Spans g ts α i j) : i < j → j ≤ ts.length := by
  induction h with
  | nil i => intro hlt; omega
  | @terminal t rest i j ht _ hrest ih =>
    intro _
    have hi := (List.getElem?_eq_some_iff.mp ht).1
    rcases Nat.lt_or_ge (i + 1) j with hlt | hge
    · exact ih hlt
    · have := hrest.le; omega
  | @nonterminal r rest i k j hr hrest ih₁ ih₂ =>
    intro hlt
    rcases Nat.lt_or_ge k j with hk | hk
    · exact ih₂ hk
    · have := hrest.le; have := ih₁ (by omega); omega

/-- Spans depend on the tokens in them only. -/
theorem Spans.congr {ts' : List (Token κ)} {α : List κ} {i j : Nat} (h : Spans g ts α i j) :
    (∀ k, k < j → ts[k]? = ts'[k]?) → Spans g ts' α i j := by
  induction h with
  | nil i => exact fun _ => .nil i
  | terminal ht hn hrest ih =>
    intro hsame
    have := hrest.le
    rw [hsame _ (by omega)] at ht
    exact .terminal ht hn (ih hsame)
  | nonterminal r hr hrest ih₁ ih₂ =>
    intro hsame
    have := hrest.le
    exact .nonterminal r (ih₁ fun k hk => hsame k (by omega)) (ih₂ hsame)

theorem Spans.append {α β : List κ} {i k j : Nat} (h₁ : Spans g ts α i k) (h₂ : Spans g ts β k j) :
    Spans g ts (α ++ β) i j := by
  induction h₁ with
  | nil i => exact h₂
  | terminal ht hn _ ih => exact .terminal ht hn (ih h₂)
  | nonterminal r hr _ _ ih => exact .nonterminal r hr (ih h₂)

theorem Spans.split {α β : List κ} {i j : Nat} (h : Spans g ts (α ++ β) i j) :
    ∃ k, Spans g ts α i k ∧ Spans g ts β k j := by
  induction α generalizing i with
  | nil => exact ⟨i, .nil i, h⟩
  | cons s α ih =>
    cases h with
    | terminal ht hn hrest =>
      obtain ⟨k, h₁, h₂⟩ := ih hrest
      exact ⟨k, .terminal ht hn h₁, h₂⟩
    | nonterminal r hr hrest =>
      obtain ⟨k, h₁, h₂⟩ := ih hrest
      exact ⟨k, .nonterminal r hr h₁, h₂⟩

theorem Spans.single {r : g.Index} {i j : Nat} (h : Spans g ts (g.rule r).rhs i j) :
    Spans g ts [(g.rule r).lhs] i j := .nonterminal r h (.nil j)

theorem Spans.single_terminal {t : Token κ} {i : Nat} (ht : ts[i]? = some t)
    (hn : g.isNonterminal t.kind = false) : Spans g ts [t.kind] i (i + 1) := .terminal ht hn (.nil _)

/-- What a single nonterminal spans, one of its rules spans. -/
theorem Spans.of_single {s : κ} {i j : Nat} (h : Spans g ts [s] i j) (hs : g.isNonterminal s = true) :
    ∃ r, (g.rule r).lhs = s ∧ Spans g ts (g.rule r).rhs i j := by
  cases h with
  | terminal ht hn hrest => rw [hn] at hs; cases hs
  | nonterminal r hr hrest => cases hrest; exact ⟨r, rfl, hr⟩

/-! ## Spans are derivations -/

theorem Spans.derives {α : List κ} {i j : Nat} (h : Spans g ts α i j) :
    g.contextFree.Derives (α.map g.symbol) ((between (ts.map (·.kind)) i j).map .terminal) := by
  induction h with
  | nil i => simp [between_self]; rfl
  | @terminal t rest i j ht hn hrest ih =>
    rw [← between_append (Nat.le_succ i) hrest.le, between_succ (kind_getElem? ht), List.map_cons,
      symbol_terminal hn]
    exact ih.append_left [.terminal t.kind]
  | @nonterminal r rest i k j hr hrest ih₁ ih₂ =>
    rw [← between_append hr.le hrest.le, List.map_cons, symbol_lhs, List.map_append]
    have hrule : g.contextFree.Produces (.nonterminal (g.rule r).lhs :: rest.map g.symbol)
        ((g.rule r).rhs.map g.symbol ++ rest.map g.symbol) :=
      ⟨_, mem_contextFree_rules.mpr ⟨r, rfl⟩, .head _⟩
    exact hrule.trans_derives ((ih₁.append_right _).trans (ih₂.append_left _))

/-- Terminals span the tokens of their own kinds. -/
theorem spans_terminals {w : List κ} {i : Nat} (hw : ∀ s ∈ w, g.isNonterminal s = false)
    (h : between (ts.map (·.kind)) i (i + w.length) = w) : Spans g ts w i (i + w.length) := by
  induction w generalizing i with
  | nil => exact .nil i
  | cons s w ih =>
    cases ht : ts[i]? with
    | none =>
      have hi : ts.length ≤ i := by simpa using ht
      simp [between, List.drop_eq_nil_of_le (show (ts.map (·.kind)).length ≤ i by simpa using hi)] at h
    | some t =>
      rw [List.length_cons, ← between_append (Nat.le_succ i) (by omega), between_succ (kind_getElem? ht)] at h
      obtain ⟨hs, hrest⟩ := List.cons_eq_cons.mp h
      have hlen : i + (s :: w).length = (i + 1) + w.length := by simp; omega
      subst hs
      rw [hlen]
      have hrest' : between (ts.map (·.kind)) (i + 1) (i + 1 + w.length) = w := by
        rw [← hlen, List.length_cons]; exact hrest
      exact .terminal ht (hw _ (by simp)) (ih (fun s hs => hw s (by simp [hs])) hrest')

/-- One step of rewriting, undone on the side of spans. -/
theorem spans_of_produces (ts : List (Token κ)) {α : List κ} {v : List (Symbol κ κ)}
    (h : g.contextFree.Produces (α.map g.symbol) v) :
    ∃ β, v = β.map g.symbol ∧ ∀ i j, Spans g ts β i j → Spans g ts α i j := by
  obtain ⟨r, hr, hrw⟩ := h
  obtain ⟨n, rfl⟩ := mem_contextFree_rules.mp hr
  obtain ⟨p, q, hα, rfl⟩ := hrw.exists_parts
  rw [List.append_assoc] at hα
  obtain ⟨α₁, α', rfl, rfl, hα'⟩ := List.map_eq_append_iff.mp hα
  obtain ⟨s, α₂, rfl, hs, rfl⟩ := List.map_eq_cons_iff.mp hα'
  have hlhs := symbol_eq_nonterminal hs
  subst hlhs
  refine ⟨α₁ ++ ((g.rule n).rhs ++ α₂), by simp, fun i j hspan => ?_⟩
  obtain ⟨k, h₁, h⟩ := hspan.split
  obtain ⟨l, h₂, h₃⟩ := h.split
  exact h₁.append (.nonterminal n h₂ h₃)

theorem spans_of_derives (ts : List (Token κ)) {u v : List (Symbol κ κ)} (h : g.contextFree.Derives u v) :
    ∀ {α w : List κ} {i : Nat}, u = α.map g.symbol → v = w.map .terminal →
      between (ts.map (·.kind)) i (i + w.length) = w → Spans g ts α i (i + w.length) := by
  induction h using Relation.ReflTransGen.head_induction_on with
  | refl =>
    intro α w i hu hv hw
    -- nothing was rewritten, so the symbols are the word itself
    have hαw : α = w ∧ ∀ s ∈ w, g.isNonterminal s = false := by
      rw [hu] at hv
      clear hw hu
      induction α generalizing w with
      | nil => cases w <;> simp_all
      | cons s α ih =>
        cases w with
        | nil => simp at hv
        | cons t w =>
          simp only [List.map_cons, List.cons.injEq] at hv
          obtain ⟨rfl, ht⟩ := symbol_eq_terminal hv.1
          obtain ⟨rfl, hall⟩ := ih hv.2
          exact ⟨rfl, by simpa using ⟨ht, hall⟩⟩
    obtain ⟨rfl, hall⟩ := hαw
    exact spans_terminals hall hw
  | head hstep _ ih =>
    intro α w i hu hv hw
    subst hu
    obtain ⟨β, rfl, hback⟩ := spans_of_produces ts hstep
    exact hback _ _ (ih rfl hv hw)

theorem spans_iff_derives {α : List κ} {i j : Nat} (hij : i ≤ j) (hj : j ≤ ts.length) :
    Spans g ts α i j ↔
      g.contextFree.Derives (α.map g.symbol) ((between (ts.map (·.kind)) i j).map .terminal) := by
  constructor
  · exact Spans.derives
  · intro h
    have hlen : i + (between (ts.map (·.kind)) i j).length = j := by simp [between]; omega
    have hspan := spans_of_derives ts (i := i) h rfl rfl (by rw [hlen])
    rwa [hlen] at hspan

/-- The whole token list is spanned by the start symbol exactly if its symbols form a word of the
language. -/
theorem spans_start_iff : Spans g ts [(g.rule g.first).lhs] 0 ts.length ↔
    ts.map (·.kind) ∈ g.contextFree.language := by
  have hall : between (ts.map (·.kind)) 0 ts.length = ts.map (·.kind) := by simp [between]
  rw [spans_iff_derives (Nat.zero_le _) (Nat.le_refl _), hall, List.map_singleton, symbol_lhs]
  rfl

end IrafCl.Grammar
