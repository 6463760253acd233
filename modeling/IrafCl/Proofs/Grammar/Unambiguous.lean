import IrafCl.Proofs.Grammar.Outlook
import Mathlib.Logic.Relation

/-!
# Grammars without ambiguity

A derivation can be built from its tokens, from left to right and from the leaves up: a token is put on a
stack, or the derivations on top of the stack are made one by a rule (`Performs`). The symbols on the stack
tell at which spots of which rules the building may stand (`Viable`), and a spot offers one move, before
certain tokens (`Outlook.offer?`). If spots that may share a stack never offer different moves before the
same tokens (`Decided`), every step is determined by the stack and the tokens. All derivations of some tokens
are built by such steps (`built_of_valid`), so they are the same (`Decided.unique`).

Which spots may share a stack is told by a relation between those spots that stand behind a symbol. It
need not be the least one; it is enough that it is kept when both go on over the same symbol.
-/

namespace IrafCl

variable {κ : Type}

/-- A spot in a rule. The symbols before it are in reverse order. -/
structure Spot (κ : Type) where
  rule : Nat
  lhs : κ
  before : List κ
  rest : List κ

namespace Spot

/-- The spot behind the next symbol. -/
def advance : Spot κ → Spot κ
  | ⟨rule, lhs, before, s :: rest⟩ => ⟨rule, lhs, s :: before, rest⟩
  | p => p

/-- The spot at the end of the rule. -/
def finish (p : Spot κ) : Spot κ := ⟨p.rule, p.lhs, p.rest.reverse ++ p.before, []⟩

/-- A spot in a rule of the grammar. -/
def Of (p : Spot κ) (g : Grammar κ) : Prop :=
  ∃ r : g.Index, p.rule = r ∧ p.lhs = (g.rule r).lhs ∧ p.before.reverse ++ p.rest = (g.rule r).rhs

end Spot

namespace Grammar

variable (g : Grammar κ)

/-- The spot where a rule begins. -/
def opening (r : g.Index) : Spot κ := ⟨r, (g.rule r).lhs, [], (g.rule r).rhs⟩

/-- What `a` stands for may begin with `b`. -/
abbrev Corner : κ → κ → Prop :=
  Relation.ReflTransGen fun a b => ∃ r rest, (g.rule r).lhs = a ∧ (g.rule r).rhs = b :: rest

/-- The spots where the building may stand when it stands at one. -/
inductive Opens (k : Spot κ) : Spot κ → Prop where
  | self : Opens k k
  | corner {s : κ} {rest : List κ} (r : g.Index) (hk : k.rest = s :: rest) (hcorner : g.Corner s (g.rule r).lhs) :
    Opens k (g.opening r)

/-- The spots behind the last symbol of a stack. -/
inductive Kernel : List κ → Spot κ → Prop where
  | start : Kernel [] (g.opening g.first)
  | move {α : List κ} {k i : Spot κ} {s : κ} {rest : List κ} (hk : Kernel α k) (hi : g.Opens k i)
      (hs : i.rest = s :: rest) : Kernel (s :: α) i.advance

/-- The building may stand at a spot when the symbols, the last one first, are on the stack. -/
def Viable (α : List κ) (i : Spot κ) : Prop := ∃ k, g.Kernel α k ∧ g.Opens k i

end Grammar

/-! ## Moves -/

/-- How to go on: put the next token on the stack, apply a rule to what is on it, or apply the empty rule of
a symbol. -/
inductive Move (κ : Type) where
  | shift
  | reduce (rule : Nat)
  | vanish (s : κ)
  deriving DecidableEq

/-- A move before certain tokens. -/
structure Offer (κ : Type) where
  move : Move κ
  view : Glimpse κ

namespace Outlook

variable (o : Outlook κ)

/-- The move that a spot offers. -/
def offer? (i : Spot κ) : Option (Offer κ) :=
  match i.rest with
  | [] => if i.before.isEmpty then none else some ⟨.reduce i.rule, o.follows i.lhs⟩
  | s :: rest =>
    if o.inner s then
      if o.blank s then some ⟨.vanish s, ⟨o.ahead i.lhs rest, []⟩⟩ else none
    else some ⟨.shift, ⟨o.only s, [(s, o.ahead i.lhs rest)]⟩⟩

variable [DecidableEq κ]

/-- The terminals behind which no token is in sets of both lists. -/
def parted : List (κ × Nat) → List (κ × Nat) → Nat
  | [], _ => 0
  | (s, m) :: a, b => (if b.any fun (t, n) => s = t && m &&& n == 0 then o.only s else 0) ||| parted a b

/-- No tokens are as both know, unless they begin with one of `barred`. -/
def apart (barred : Nat) (a b : Glimpse κ) : Bool :=
  within (a.first &&& b.first) (barred ||| o.parted a.second b.second)

/-- Two spots that share a stack stay beside each other, and do not offer different moves before the same
tokens. -/
def compatible (barred : Nat) (beside : Spot κ → Spot κ → Bool) (i j : Spot κ) : Bool :=
  (match i.rest, j.rest with
    | s :: _, t :: _ => s ≠ t || beside i.advance j.advance
    | _, _ => true) &&
  match o.offer? i, o.offer? j with
  | some a, some b => a.move = b.move || o.apart barred a.view b.view
  | _, _ => true

/-- Spots beside each other are compatible, and so is all that they open. -/
structure Decided (g : Grammar κ) (barred : Nat) (beside : Spot κ → Spot κ → Bool) : Prop where
  comm : ∀ k k', beside k k' = beside k' k
  start : beside (g.opening g.first) (g.opening g.first) = true
  compatible : ∀ k k' i j, k.Of g → k'.Of g → beside k k' = true → g.Opens k i → g.Opens k' j →
    o.compatible barred beside i j = true ∨ o.compatible barred beside j i = true

end Outlook

/-- A stack of derivations, the last one first, and the tokens that are left. -/
abbrev Building (g : Grammar κ) := List (Derivation g) × List (Token κ)

/-- What a move does. -/
inductive Performs (g : Grammar κ) : Move κ → Building g → Building g → Prop where
  | shift (stack : List (Derivation g)) (t : Token κ) (ts : List (Token κ)) :
    Performs g .shift (stack, t :: ts) (.token t :: stack, ts)
  | reduce (r : g.Index) (ds below stack : List (Derivation g)) (ts : List (Token κ))
    (hds : ds.length = (g.rule r).rhs.length) (hstack : stack = ds.reverse ++ below) :
    Performs g (.reduce r) (stack, ts) (.node r ds :: below, ts)
  | vanish (r : g.Index) (stack : List (Derivation g)) (ts : List (Token κ)) (hr : (g.rule r).rhs = []) :
    Performs g (.vanish (g.rule r).lhs) (stack, ts) (.node r [] :: stack, ts)

/-- A move that is offered at a viable spot. -/
def Offered (o : Outlook κ) (g : Grammar κ) (m : Move κ) (b : Building g) : Prop :=
  ∃ i v, g.Viable (b.1.map Derivation.symbol) i ∧ o.offer? i = some ⟨m, v⟩ ∧ v.Holds o b.2

/-- A step of building: the next token is not barred, and an offered move is performed. -/
def BuildStep (o : Outlook κ) (g : Grammar κ) (barred : Nat) (b b' : Building g) : Prop :=
  (∀ t ∈ b.2.head?, o.has barred t.kind = false) ∧ ∃ m, Offered o g m b ∧ Performs g m b b'

variable {g : Grammar κ} {o : Outlook κ}

/-! ## Spots -/

namespace Spot

theorem Of.advance {p : Spot κ} (h : p.Of g) : p.advance.Of g := by
  obtain ⟨rule, lhs, before, rest⟩ := p
  cases rest with
  | nil => exact h
  | cons s rest =>
    obtain ⟨r, hrule, hlhs, hrhs⟩ := h
    refine ⟨r, hrule, hlhs, ?_⟩
    rw [← hrhs]
    simp [Spot.advance]

theorem Of.opens {k i : Spot κ} (h : k.Of g) (hi : g.Opens k i) : i.Of g := by
  cases hi with
  | self => exact h
  | corner r _ _ => exact ⟨r, rfl, rfl, rfl⟩

theorem advance_eq {p : Spot κ} {s : κ} {rest : List κ} (h : p.rest = s :: rest) :
    p.advance = ⟨p.rule, p.lhs, s :: p.before, rest⟩ := by
  obtain ⟨rule, lhs, before, rest'⟩ := p
  obtain rfl : rest' = s :: rest := h
  rfl

theorem finish_advance (p : Spot κ) : p.advance.finish = p.finish := by
  obtain ⟨rule, lhs, before, rest⟩ := p
  cases rest with
  | nil => rfl
  | cons s rest => simp [advance, finish]

end Spot

namespace Grammar

theorem Kernel.of {α : List κ} {k : Spot κ} (h : g.Kernel α k) : k.Of g := by
  induction h with
  | start => exact ⟨g.first, rfl, rfl, rfl⟩
  | move _ hi _ ih => exact (ih.opens hi).advance

theorem Viable.of {α : List κ} {i : Spot κ} (h : g.Viable α i) : i.Of g := by
  obtain ⟨k, hk, hi⟩ := h
  exact hk.of.opens hi

theorem viable_start : g.Viable [] (g.opening g.first) := ⟨_, .start, .self⟩

theorem Viable.advance {α : List κ} {i : Spot κ} {s : κ} {rest : List κ} (h : g.Viable α i)
    (hs : i.rest = s :: rest) : g.Viable (s :: α) i.advance := by
  obtain ⟨k, hk, hi⟩ := h
  exact ⟨i.advance, .move hk hi hs, .self⟩

theorem Viable.opening {α : List κ} {i : Spot κ} {r : g.Index} {rest : List κ} (h : g.Viable α i)
    (hr : i.rest = (g.rule r).lhs :: rest) : g.Viable α (g.opening r) := by
  obtain ⟨k, hk, hi⟩ := h
  refine ⟨k, hk, ?_⟩
  cases hi with
  | self => exact .corner r hr .refl
  | corner r' hk hcorner => exact .corner r hk (hcorner.tail ⟨r', rest, rfl, hr⟩)

/-- A symbol on a stack stands in a rule. -/
theorem Viable.mem_rhs {α : List κ} {i : Spot κ} {s : κ} (h : g.Viable (s :: α) i) : ∃ r, s ∈ (g.rule r).rhs := by
  obtain ⟨k, hk, -⟩ := h
  cases hk with
  | move hk' hi hs =>
    obtain ⟨r, -, -, hrhs⟩ := hk'.of.opens hi
    exact ⟨r, by rw [← hrhs, hs]; simp⟩

end Grammar

/-! ## Offers -/

namespace Outlook

theorem offer?_of_complete {i : Spot κ} (h : i.rest = []) (hbefore : i.before ≠ []) :
    o.offer? i = some ⟨.reduce i.rule, o.follows i.lhs⟩ := by
  simp [offer?, h, hbefore]

theorem offer?_of_terminal {i : Spot κ} {s : κ} {rest : List κ} (h : i.rest = s :: rest) (hs : o.inner s = false) :
    o.offer? i = some ⟨.shift, ⟨o.only s, [(s, o.ahead i.lhs rest)]⟩⟩ := by
  simp [offer?, h, hs]

theorem offer?_of_blank {i : Spot κ} {s : κ} {rest : List κ} (h : i.rest = s :: rest) (hs : o.inner s = true)
    (hblank : o.blank s = true) : o.offer? i = some ⟨.vanish s, ⟨o.ahead i.lhs rest, []⟩⟩ := by
  simp [offer?, h, hs, hblank]

end Outlook

/-! ## Moves are determined -/

/-- A move has one outcome. -/
theorem Performs.right_unique [DecidableEq κ] (ho : o.Sound g) {m : Move κ} {b b₁ b₂ : Building g}
    (h₁ : Performs g m b b₁) (h₂ : Performs g m b b₂) : b₁ = b₂ := by
  cases h₁ with
  | shift stack t ts => cases h₂; rfl
  | reduce r ds below stack ts hds hstack =>
    generalize hm : Move.reduce r.val = m at h₂
    cases h₂ with
    | shift => cases hm
    | vanish => cases hm
    | reduce r' ds' below' _ _ hds' hstack' =>
      obtain rfl : r = r' := Fin.ext (Move.reduce.inj hm)
      obtain ⟨hds, rfl⟩ := List.append_inj (hstack.symm.trans hstack') (by simp [hds, hds'])
      rw [List.reverse_injective hds]
  | vanish r stack ts hr =>
    generalize hm : Move.vanish (g.rule r).lhs = m at h₂
    cases h₂ with
    | shift => cases hm
    | reduce => cases hm
    | vanish r' _ _ hr' => rw [ho.blank_unique r r' hr hr' (Move.vanish.inj hm)]

variable [DecidableEq κ] {barred : Nat} {beside : Spot κ → Spot κ → Bool}

namespace Outlook

theorem exists_of_has_parted (ho : o.Sound g) {a b : List (κ × Nat)} {t : κ} (h : o.has (o.parted a b) t = true) :
    ∃ m n, (t, m) ∈ a ∧ (t, n) ∈ b ∧ m &&& n = 0 := by
  induction a with
  | nil => exact absurd h (not_has_zero t)
  | cons p a ih =>
    obtain ⟨s, m⟩ := p
    rw [parted, has_or] at h
    rcases h with h | h
    · split at h
      · next hany =>
        obtain rfl : s = t := ho.bit_inj s t (has_only.mp h)
        simp only [List.any_eq_true, Bool.and_eq_true, decide_eq_true_eq, beq_iff_eq] at hany
        obtain ⟨⟨s', n⟩, hmem, rfl, hzero⟩ := hany
        exact ⟨m, n, by simp, hmem, hzero⟩
      · exact absurd h (not_has_zero t)
    · obtain ⟨m', n, hm, hn, hzero⟩ := ih h
      exact ⟨m', n, List.mem_cons_of_mem _ hm, hn, hzero⟩

/-- Tokens that are as both know begin with a barred one. -/
theorem has_barred_of_apart (ho : o.Sound g) {a b : Glimpse κ} (h : o.apart barred a b = true) {ts : List (Token κ)}
    (ha : a.Holds o ts) (hb : b.Holds o ts) : ∃ t ∈ ts.head?, o.has barred t.kind = true := by
  obtain ⟨t, us, rfl, hta, hsecond⟩ := ha
  obtain ⟨_, _, heq, htb, hsecond'⟩ := hb
  obtain ⟨rfl, rfl⟩ := List.cons.inj heq
  rcases has_or.mp (has_of_within h (has_and.mpr ⟨hta, htb⟩)) with hbarred | hparted
  · exact ⟨t, rfl, hbarred⟩
  · -- the token behind it would be in two sets that have none in common
    obtain ⟨m, n, hm, hn, hzero⟩ := exists_of_has_parted ho hparted
    obtain ⟨u, hu, hum⟩ := hsecond t.kind m hm rfl
    obtain ⟨u', hu', hun⟩ := hsecond' t.kind n hn rfl
    obtain rfl : u = u' := Option.some.inj (hu.symm.trans hu')
    have hboth := has_and.mpr ⟨hum, hun⟩
    rw [hzero] at hboth
    exact absurd hboth (not_has_zero _)

theorem beside_advance_of_compatible {i j : Spot κ} (h : o.compatible barred beside i j = true) {s : κ}
    {rest rest' : List κ} (hi : i.rest = s :: rest) (hj : j.rest = s :: rest') :
    beside i.advance j.advance = true := by
  simp only [compatible, hi, hj, Bool.and_eq_true, Bool.or_eq_true, decide_eq_true_eq] at h
  exact h.1.resolve_left fun hne => hne rfl

/-- What compatible spots offer before the same tokens is the same move, unless the first is barred. -/
theorem move_eq_of_compatible (ho : o.Sound g) {i j : Spot κ} (h : o.compatible barred beside i j = true)
    {m m' : Move κ} {v v' : Glimpse κ} (hi : o.offer? i = some ⟨m, v⟩) (hj : o.offer? j = some ⟨m', v'⟩)
    {ts : List (Token κ)} (hv : v.Holds o ts) (hv' : v'.Holds o ts)
    (hfree : ∀ t ∈ ts.head?, o.has barred t.kind = false) : m = m' := by
  simp only [compatible, hi, hj, Bool.and_eq_true, Bool.or_eq_true, decide_eq_true_eq] at h
  refine h.2.resolve_right fun hapart => ?_
  obtain ⟨t, ht, hbarred⟩ := has_barred_of_apart ho hapart hv hv'
  rw [hfree t ht] at hbarred
  cases hbarred

namespace Decided

/-- Spots behind the last symbol of the same stack are beside each other. -/
theorem beside_of_kernel (hd : o.Decided g barred beside) {α : List κ} {k k' : Spot κ} (h : g.Kernel α k)
    (h' : g.Kernel α k') : beside k k' = true := by
  induction h generalizing k' with
  | start => cases h'; exact hd.start
  | move hk hi hs ih =>
    cases h' with
    | move hk' hj hs' =>
      rcases hd.compatible _ _ _ _ hk.of hk'.of (ih hk') hi hj with h | h
      · exact beside_advance_of_compatible h hs hs'
      · rw [hd.comm]
        exact beside_advance_of_compatible h hs' hs

/-- Before tokens that are not barred at most one move is offered. -/
theorem offered_unique (hd : o.Decided g barred beside) (ho : o.Sound g) {b : Building g} {m m' : Move κ}
    (hfree : ∀ t ∈ b.2.head?, o.has barred t.kind = false) (h : Offered o g m b) (h' : Offered o g m' b) :
    m = m' := by
  obtain ⟨i, v, ⟨k, hk, hi⟩, hoffer, hv⟩ := h
  obtain ⟨j, v', ⟨k', hk', hj⟩, hoffer', hv'⟩ := h'
  rcases hd.compatible k k' i j hk.of hk'.of (hd.beside_of_kernel hk hk') hi hj with h | h
  · exact move_eq_of_compatible ho h hoffer hoffer' hv hv' hfree
  · exact (move_eq_of_compatible ho h hoffer' hoffer hv' hv hfree).symm

theorem step_unique (hd : o.Decided g barred beside) (ho : o.Sound g) :
    Relator.RightUnique (BuildStep o g barred) := by
  rintro b b₁ b₂ ⟨hfree, m, hm, h⟩ ⟨_, m', hm', h'⟩
  obtain rfl : m = m' := hd.offered_unique ho hfree hm hm'
  exact h.right_unique ho h'

end Decided

end Outlook

/-! ## Derivations are built -/

/-- Steps of building. -/
abbrev Builds (o : Outlook κ) (g : Grammar κ) (barred : Nat) : Building g → Building g → Prop :=
  Relation.ReflTransGen (BuildStep o g barred)

/-- Wherever the symbol of a derivation is next, the derivation is built from its tokens. -/
def Built (o : Outlook κ) (barred : Nat) (d : Derivation g) : Prop :=
  ∀ stack i rest ts, g.Viable (stack.map Derivation.symbol) i → i.rest = d.symbol :: rest →
    o.Expects g i.lhs rest ts → (∀ t ∈ d.yield ++ ts, o.has barred t.kind = false) →
    Builds o g barred (stack, d.yield ++ ts) (d :: stack, ts)

omit [DecidableEq κ] in
theorem forall_head?_of_forall_mem {ts : List (Token κ)} {P : Token κ → Prop} (h : ∀ t ∈ ts, P t) :
    ∀ t ∈ ts.head?, P t := fun t ht => h t (List.mem_of_mem_head? ht)

/-- What can be built one by one is built in a row. -/
theorem builds_all {ds : List (Derivation g)} (hvalid : ∀ d ∈ ds, d.Valid) (hbuilt : ∀ d ∈ ds, Built o barred d)
    {stack : List (Derivation g)} {i : Spot κ} {ts : List (Token κ)}
    (hi : g.Viable (stack.map Derivation.symbol) i) (hrest : i.rest = ds.map Derivation.symbol)
    (hts : (o.follows i.lhs).Holds o ts) (hfree : ∀ t ∈ Derivation.yieldAll ds ++ ts, o.has barred t.kind = false) :
    Builds o g barred (stack, Derivation.yieldAll ds ++ ts) (ds.reverse ++ stack, ts) ∧
      g.Viable ((ds.reverse ++ stack).map Derivation.symbol) i.finish := by
  induction ds generalizing stack i with
  | nil =>
    refine ⟨.refl, ?_⟩
    obtain ⟨rule, lhs, before, rest⟩ := i
    obtain rfl : rest = [] := hrest
    exact hi
  | cons d ds ih =>
    rw [List.map_cons] at hrest
    rw [Derivation.yieldAll, List.append_assoc] at hfree ⊢
    have htail : ∀ d ∈ ds, d.Valid := fun d hd => hvalid d (by simp [hd])
    have hexpects : o.Expects g i.lhs (ds.map Derivation.symbol) (Derivation.yieldAll ds ++ ts) :=
      ⟨ds, ts, htail, rfl, rfl, hts⟩
    have hhead := hbuilt d (by simp) stack i _ _ hi hrest hexpects hfree
    have hadvance : i.advance = ⟨i.rule, i.lhs, d.symbol :: i.before, ds.map Derivation.symbol⟩ :=
      Spot.advance_eq hrest
    have hviable : g.Viable ((d :: stack).map Derivation.symbol) i.advance := hi.advance hrest
    obtain ⟨hbuilds, hfinish⟩ := ih htail (fun d hd => hbuilt d (by simp [hd])) hviable (by rw [hadvance]) (by rwa [hadvance])
      fun t ht => hfree t (List.mem_append_right _ ht)
    rw [Spot.finish_advance] at hfinish
    rw [List.reverse_cons, List.append_assoc, List.singleton_append]
    exact ⟨hhead.trans hbuilds, hfinish⟩

/-- Where a rule with symbols begins, its derivations are built and made one. -/
theorem builds_node {r : g.Index} {ds : List (Derivation g)} (hrhs : ds.map Derivation.symbol = (g.rule r).rhs)
    (hds : ds ≠ []) (hvalid : ∀ d ∈ ds, d.Valid) (hbuilt : ∀ d ∈ ds, Built o barred d)
    {stack : List (Derivation g)} {ts : List (Token κ)}
    (hopening : g.Viable (stack.map Derivation.symbol) (g.opening r)) (hts : (o.follows (g.rule r).lhs).Holds o ts)
    (hfree : ∀ t ∈ Derivation.yieldAll ds ++ ts, o.has barred t.kind = false) :
    Builds o g barred (stack, Derivation.yieldAll ds ++ ts) (.node r ds :: stack, ts) := by
  obtain ⟨hbuilds, hfinish⟩ := builds_all hvalid hbuilt hopening hrhs.symm hts hfree
  refine hbuilds.tail ⟨?_, .reduce r, ?_, ?_⟩
  · exact forall_head?_of_forall_mem fun t ht => hfree t (List.mem_append_right _ ht)
  · refine ⟨_, _, hfinish, Outlook.offer?_of_complete rfl ?_, hts⟩
    rw [Spot.finish, Grammar.opening, ← hrhs]
    simpa using hds
  · exact .reduce r ds stack _ ts (by rw [← hrhs, List.length_map]) rfl

/-- Every derivation is built where its symbol is next. -/
theorem built_of_valid (ho : o.Sound g) {d : Derivation g} (hd : d.Valid) : Built o barred d := by
  induction hd with
  | token t hn =>
    intro stack i rest ts hi hrest hexpects hfree
    obtain ⟨r, -, -, hrhs⟩ := hi.of
    have hinner : o.inner t.kind = false := by
      rw [ho.inner r t.kind (by rw [← hrhs, hrest]; simp [Derivation.symbol]), hn]
    obtain ⟨u, us, rfl, hu⟩ := hexpects.head ho
    have hoffered : Offered o g .shift (stack, t :: u :: us) := by
      refine ⟨i, _, hi, Outlook.offer?_of_terminal hrest hinner, t, u :: us, rfl, Outlook.has_only.mpr rfl, ?_⟩
      intro s set hmem _
      obtain ⟨-, rfl⟩ := Prod.mk.inj (List.mem_singleton.mp hmem)
      exact ⟨u, rfl, hu⟩
    exact .single ⟨forall_head?_of_forall_mem hfree, .shift, hoffered, .shift stack t _⟩
  | node r ds hrhs hds ih =>
    intro stack i rest ts hi hrest hexpects hfree
    obtain ⟨r', -, hlhs, hrhs'⟩ := hi.of
    rw [Derivation.symbol] at hrest
    have hmem : (g.rule r).lhs ∈ (g.rule r').rhs := by
      rw [← hrhs', hrest]
      simp
    have hnonterminal := Grammar.isNonterminal_lhs r
    cases ds with
    | nil =>
      have hempty : (g.rule r).rhs = [] := hrhs.symm
      have hinner : o.inner (g.rule r).lhs = true := by rw [ho.inner r' _ hmem, hnonterminal]
      obtain ⟨t, us, rfl, ht⟩ := hexpects.head ho
      have hoffered : Offered o g (.vanish (g.rule r).lhs) (stack, t :: us) :=
        ⟨i, _, hi, Outlook.offer?_of_blank hrest hinner (ho.blank r hempty), t, us, rfl, ht, by simp⟩
      exact .single ⟨forall_head?_of_forall_mem hfree, _, hoffered, .vanish r stack _ hempty⟩
    | cons d ds =>
      rw [hlhs] at hexpects
      rw [← hrhs', hrest] at hmem
      exact builds_node hrhs (by simp) hds ih (hi.opening hrest)
        (ho.holds_follows (by rw [← hrhs', hrest]) hnonterminal hexpects) hfree

/-- Derivations by the start rule of the same tokens are the same. -/
theorem Outlook.Decided.unique (hd : o.Decided g barred beside) (ho : o.Sound g)
    (hfirst : (g.rule g.first).rhs ≠ []) (hstart : ∀ r, (g.rule g.first).lhs ∉ (g.rule r).rhs)
    {last : Token κ} (hlast : (o.follows (g.rule g.first).lhs).Holds o [last])
    {ds ds' : List (Derivation g)} (h : (Derivation.node g.first ds).Valid) (h' : (Derivation.node g.first ds').Valid)
    {ts : List (Token κ)} (hyield : Derivation.yieldAll ds = ts) (hyield' : Derivation.yieldAll ds' = ts)
    (hfree : ∀ t ∈ ts ++ [last], o.has barred t.kind = false) : ds = ds' := by
  have hbuilds : ∀ ds, (Derivation.node g.first ds).Valid → Derivation.yieldAll ds = ts →
      Builds o g barred ([], ts ++ [last]) ([.node g.first ds], [last]) := by
    rintro ds (_ | ⟨_, _, hrhs, hds⟩) rfl
    refine builds_node hrhs ?_ hds (fun d hd => built_of_valid ho (hds d hd)) Grammar.viable_start hlast hfree
    rintro rfl
    exact hfirst hrhs.symm
  -- nothing is offered on top of the start symbol
  have hends : ∀ ds b, Builds o g barred ([.node g.first ds], [last]) b → b = ([.node g.first ds], [last]) := by
    intro ds b hb
    rcases hb.cases_head with heq | ⟨_, ⟨-, m, ⟨i, v, hi, -⟩, -⟩, -⟩
    · exact heq.symm
    · obtain ⟨r, hr⟩ := Grammar.Viable.mem_rhs hi
      exact absurd hr (hstart r)
  rcases (hbuilds ds h hyield).total_of_right_unique (hd.step_unique ho) (hbuilds ds' h' hyield') with hb | hb
  · simpa using (hends ds _ hb).symm
  · simpa using hends ds' _ hb

end IrafCl
