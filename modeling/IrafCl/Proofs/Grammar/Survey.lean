import IrafCl.Proofs.Grammar.Unambiguous
import IrafCl.Proofs.Parser

/-!
# Surveying a grammar

Whether the moves of a grammar are decided (`Outlook.Decided`) is a question about finitely many spots. The
spots behind a symbol are sorted by it, since only those behind the same symbol share a stack. What a spot
opens is told by the symbol next to it, so for two spots with one symbol next it is enough to compare what
this symbol opens. Some symbols open all that others do, and are looked at in their place (`Survey.tops`);
the few pairs of different symbols are listed (`Survey.meetings`).
-/

namespace IrafCl

variable {κ : Type}

/-! ## Lists -/

section
variable {α : Type}

/-- The elements in parts, by some bits of their codes. -/
def sorted (code : α → Nat) : Nat → List α → List (List α)
  | 0, l => [l]
  | n + 1, l =>
    sorted code n (l.filter fun a => (code a).testBit n) ++ sorted code n (l.filter fun a => !(code a).testBit n)

/-- Elements with the same code are in the same part. -/
theorem exists_mem_sorted {code : α → Nat} (n : Nat) {l : List α} {a b : α} (ha : a ∈ l) (hb : b ∈ l)
    (h : code a = code b) : ∃ c ∈ sorted code n l, a ∈ c ∧ b ∈ c := by
  induction n generalizing l with
  | zero => exact ⟨l, by simp [sorted], ha, hb⟩
  | succ n ih =>
    rw [sorted]
    by_cases hbit : (code a).testBit n = true
    · obtain ⟨c, hc, hmem⟩ := ih (l := l.filter fun a => (code a).testBit n)
        (List.mem_filter.mpr ⟨ha, hbit⟩) (List.mem_filter.mpr ⟨hb, by rwa [← h]⟩)
      exact ⟨c, List.mem_append_left _ hc, hmem⟩
    · obtain ⟨c, hc, hmem⟩ := ih (l := l.filter fun a => !(code a).testBit n)
        (List.mem_filter.mpr ⟨ha, by simpa using hbit⟩) (List.mem_filter.mpr ⟨hb, by simpa [← h] using hbit⟩)
      exact ⟨c, List.mem_append_right _ hc, hmem⟩

/-- Every element is related to itself and to those behind it. -/
def allPairs (rel : α → α → Bool) : List α → Bool
  | [] => true
  | a :: l => (a :: l).all (rel a) && allPairs rel l

theorem rel_of_allPairs {rel : α → α → Bool} {l : List α} (h : allPairs rel l = true) {a b : α} (ha : a ∈ l)
    (hb : b ∈ l) : rel a b = true ∨ rel b a = true := by
  induction l with
  | nil => cases ha
  | cons c l ih =>
    rw [allPairs, Bool.and_eq_true, List.all_eq_true] at h
    obtain ⟨hc, hl⟩ := h
    rcases List.mem_cons.mp ha with rfl | hal
    · exact .inl (hc b hb)
    · rcases List.mem_cons.mp hb with rfl | hbl
      · exact .inr (hc a ha)
      · exact ih hl hal hbl

end

/-! ## Spots -/

namespace Spot

/-- The spots of a rule behind the symbols that are left. -/
def strides (rule : Nat) (lhs : κ) (before : List κ) : List κ → List (Spot κ)
  | [] => []
  | s :: rest => ⟨rule, lhs, s :: before, rest⟩ :: strides rule lhs (s :: before) rest

theorem mem_strides (rule : Nat) (lhs : κ) (front : List κ) (hfront : front ≠ []) (before rest : List κ) :
    ⟨rule, lhs, front.reverse ++ before, rest⟩ ∈ strides rule lhs before (front ++ rest) := by
  induction front generalizing before with
  | nil => exact absurd rfl hfront
  | cons s front ih =>
    rw [List.cons_append, strides, List.reverse_cons, List.append_assoc, List.singleton_append]
    cases front with
    | nil => exact .head _
    | cons t front => exact .tail _ (ih (List.cons_ne_nil _ _) (s :: before))

end Spot

namespace Grammar

variable (g : Grammar κ)

/-- The spots where rules begin. -/
def openings : List (Spot κ) := g.rules.toList.zipIdx.map fun (r, n) => ⟨n, r.lhs, [], r.rhs⟩

/-- The spots behind symbols, and where the start rule begins. -/
def kernels : List (Spot κ) :=
  g.opening g.first :: g.openings.flatMap fun p => Spot.strides p.rule p.lhs [] p.rest

variable {g}

theorem opening_mem_openings (r : g.Index) : g.opening r ∈ g.openings := by
  refine List.mem_map.mpr ⟨(g.rule r, r), ?_, rfl⟩
  rw [List.mem_zipIdx_iff_getElem?]
  simp [rule]

theorem mem_kernels {k : Spot κ} (hk : k.Of g) (hbefore : k.before ≠ []) : k ∈ g.kernels := by
  obtain ⟨rule, lhs, before, rest⟩ := k
  obtain ⟨r, rfl, rfl, hrhs⟩ := hk
  refine .tail _ (List.mem_flatMap.mpr ⟨_, opening_mem_openings r, ?_⟩)
  have hmem := Spot.mem_strides r.val (g.rule r).lhs before.reverse (by simpa using hbefore) [] rest
  rw [List.reverse_reverse, List.append_nil, hrhs] at hmem
  exact hmem

end Grammar

/-! ## Surveys -/

/-- What is told about the spots of a grammar. -/
structure Survey (κ : Type) where
  /-- the nonterminals that what a symbol stands for may begin with -/
  leads : κ → Nat
  /-- symbols that lead to all that others lead to -/
  tops : List κ
  /-- pairs of different symbols that are next at spots which share a stack -/
  meetings : List (κ × κ)
  /-- whether spots behind a symbol may share a stack -/
  beside : Spot κ → Spot κ → Bool

/-- The number of the symbol that a spot stands behind. -/
def Outlook.code (o : Outlook κ) (p : Spot κ) : Nat :=
  match p.before with
  | [] => 0
  | s :: _ => o.bit s

namespace Survey

variable (v : Survey κ) (o : Outlook κ) (g : Grammar κ)

/-- The spots that open before a symbol. -/
def opened (s : κ) : List (Spot κ) := g.openings.filter fun p => o.has (v.leads s) p.lhs

def openedBy (k : Spot κ) : List (Spot κ) :=
  match k.rest with
  | [] => []
  | s :: _ => v.opened o g s

variable [DecidableEq κ]

def meet (s t : κ) : Bool := s = t || v.meetings.any fun (a, b) => (s = a && t = b) || (s = b && t = a)

/-- The first of two spots that share a stack is compatible with the second and with what that opens; and if
both open some, their next symbols are known to meet. -/
def passes (barred : Nat) (k k' : Spot κ) : Bool :=
  !v.beside k k' || (o.compatible barred v.beside k k' &&
    (v.openedBy o g k').all (o.compatible barred v.beside k) &&
    match k.rest, k'.rest with
    | s :: _, t :: _ => !o.inner s || !o.inner t || v.meet s t
    | _, _ => true)

/-- What is told about a grammar is right, and nothing was found where moves are not decided. -/
structure Clears (barred : Nat) : Prop where
  comm : ∀ k k', v.beside k k' = v.beside k' k
  start : v.beside (g.opening g.first) (g.opening g.first) = true
  behind : ∀ k k', v.beside k k' = true → o.code k = o.code k'
  begun : ∀ k k', v.beside k k' = true → k.before = [] → k.lhs = (g.rule g.first).lhs
  leads_self : ∀ r, o.has (v.leads (g.rule r).lhs) (g.rule r).lhs = true
  leads_head : ∀ r s rest, (g.rule r).rhs = s :: rest → Outlook.within (v.leads s) (v.leads (g.rule r).lhs) = true
  leads_top : ∀ r, ∃ t ∈ v.tops, Outlook.within (v.leads (g.rule r).lhs) (v.leads t) = true
  kernels : ∃ width, ((sorted o.code width g.kernels).all fun c => c.all fun k => c.all (v.passes o g barred k)) = true
  tops : (v.tops.all fun s => allPairs (o.compatible barred v.beside) (v.opened o g s)) = true
  meetings : (v.meetings.all fun (s, t) =>
    (v.opened o g s).all fun i => (v.opened o g t).all (o.compatible barred v.beside i)) = true

variable {v o g} {barred : Nat}

namespace Clears

theorem mem_kernels (hv : v.Clears o g barred) (hg : g.Rooted) {k k' : Spot κ} (hk : k.Of g)
    (hbeside : v.beside k k' = true) : k ∈ g.kernels := by
  by_cases hbefore : k.before = []
  · have hlhs := hv.begun k k' hbeside hbefore
    obtain ⟨rule, lhs, before, rest⟩ := k
    obtain ⟨r, rfl, rfl, hrhs⟩ := hk
    obtain rfl : before = [] := hbefore
    obtain rfl : r = g.first := hg r hlhs
    obtain rfl : rest = (g.rule g.first).rhs := hrhs
    exact .head _
  · exact Grammar.mem_kernels hk hbefore

theorem passes_of_beside (hv : v.Clears o g barred) (hg : g.Rooted) {k k' : Spot κ} (hk : k.Of g) (hk' : k'.Of g)
    (hbeside : v.beside k k' = true) : v.passes o g barred k k' = true := by
  have hbeside' : v.beside k' k = true := by rw [hv.comm, hbeside]
  obtain ⟨width, hkernels⟩ := hv.kernels
  obtain ⟨c, hc, hkc, hkc'⟩ := exists_mem_sorted width (hv.mem_kernels hg hk hbeside)
    (hv.mem_kernels hg hk' hbeside') (hv.behind k k' hbeside)
  simp only [List.all_eq_true] at hkernels
  exact hkernels c hc k hkc k' hkc'

/-- A corner of a symbol is among the nonterminals that it leads to. -/
theorem has_leads (hv : v.Clears o g barred) {s t : κ} (h : g.Corner s t) :
    ∀ r, (g.rule r).lhs = t → o.has (v.leads s) t = true := by
  induction h using Relation.ReflTransGen.head_induction_on with
  | refl =>
    rintro r rfl
    exact hv.leads_self r
  | head hstep _ ih =>
    obtain ⟨r', rest, rfl, hrhs⟩ := hstep
    intro r hr
    exact Outlook.has_of_within (hv.leads_head r' _ rest hrhs) (ih r hr)

/-- What a spot opens is itself, or opens before its next symbol. -/
theorem mem_opened (hv : v.Clears o g barred) (ho : o.Sound g) {k i : Spot κ} (hk : k.Of g) (hi : g.Opens k i) :
    i = k ∨ ∃ s rest, k.rest = s :: rest ∧ o.inner s = true ∧ (∃ r, (g.rule r).lhs = s) ∧ i ∈ v.opened o g s := by
  cases hi with
  | self => exact .inl rfl
  | @corner s rest r hrest hcorner =>
    have hs : ∃ r', (g.rule r').lhs = s := by
      rcases hcorner.cases_head with rfl | ⟨_, ⟨r', _, hr', _⟩, _⟩
      · exact ⟨r, rfl⟩
      · exact ⟨r', hr'⟩
    obtain ⟨r', -, -, hrhs⟩ := hk
    have hmem : s ∈ (g.rule r').rhs := by
      rw [← hrhs, hrest]
      simp
    refine .inr ⟨s, rest, hrest, ?_, hs, List.mem_filter.mpr ⟨Grammar.opening_mem_openings r, ?_⟩⟩
    · rw [ho.inner r' s hmem]
      exact Grammar.isNonterminal_iff.mpr hs
    · exact hv.has_leads hcorner r rfl

/-- What the same symbol opens is compatible. -/
theorem compatible_of_opened (hv : v.Clears o g barred) {s : κ} (hs : ∃ r, (g.rule r).lhs = s) {i j : Spot κ}
    (hi : i ∈ v.opened o g s) (hj : j ∈ v.opened o g s) :
    o.compatible barred v.beside i j = true ∨ o.compatible barred v.beside j i = true := by
  obtain ⟨r, rfl⟩ := hs
  obtain ⟨t, ht, hwithin⟩ := hv.leads_top r
  have hsub : ∀ p ∈ v.opened o g (g.rule r).lhs, p ∈ v.opened o g t := by
    intro p hp
    obtain ⟨hmem, hleads⟩ := List.mem_filter.mp hp
    exact List.mem_filter.mpr ⟨hmem, Outlook.has_of_within hwithin hleads⟩
  exact rel_of_allPairs (List.all_eq_true.mp hv.tops t ht) (hsub i hi) (hsub j hj)

/-- What symbols open that meet is compatible. -/
theorem compatible_of_meet (hv : v.Clears o g barred) {s t : κ} (hs : ∃ r, (g.rule r).lhs = s)
    (h : v.meet s t = true) {i j : Spot κ} (hi : i ∈ v.opened o g s) (hj : j ∈ v.opened o g t) :
    o.compatible barred v.beside i j = true ∨ o.compatible barred v.beside j i = true := by
  have hmeetings := hv.meetings
  simp only [List.all_eq_true] at hmeetings
  simp only [meet, Bool.or_eq_true, decide_eq_true_eq, List.any_eq_true, Bool.and_eq_true] at h
  rcases h with rfl | ⟨⟨a, b⟩, hmem, ⟨rfl, rfl⟩ | ⟨rfl, rfl⟩⟩
  · exact hv.compatible_of_opened hs hi hj
  · exact .inl (hmeetings _ hmem i hi j hj)
  · exact .inr (hmeetings _ hmem j hj i hi)

/-- A survey that clears a grammar decides its moves. -/
theorem decided (hv : v.Clears o g barred) (hg : g.Rooted) (ho : o.Sound g) : o.Decided g barred v.beside := by
  refine ⟨hv.comm, hv.start, fun k k' i j hk hk' hbeside hi hj => ?_⟩
  have hpasses := hv.passes_of_beside hg hk hk' hbeside
  have hpasses' := hv.passes_of_beside hg hk' hk (by rw [hv.comm, hbeside])
  simp only [passes, hbeside, hv.comm k' k, Bool.not_true, Bool.false_or, Bool.and_eq_true, List.all_eq_true]
    at hpasses hpasses'
  obtain ⟨⟨hown, hopened⟩, hmeet⟩ := hpasses
  rcases hv.mem_opened ho hk hi with rfl | ⟨s, rest, hrest, hs, hnonterminal, hi⟩
  · rcases hv.mem_opened ho hk' hj with rfl | ⟨t, rest', hrest', -, -, hj⟩
    · exact .inl hown
    · refine .inl (hopened j ?_)
      rw [openedBy, hrest']
      exact hj
  · rcases hv.mem_opened ho hk' hj with rfl | ⟨t, rest', hrest', ht, -, hj⟩
    · refine .inr (hpasses'.1.2 i ?_)
      rw [openedBy, hrest]
      exact hi
    · simp only [hrest, hrest', hs, ht, Bool.not_true, Bool.false_or] at hmeet
      exact hv.compatible_of_meet hnonterminal hmeet hi hj

end Clears

end Survey

end IrafCl
