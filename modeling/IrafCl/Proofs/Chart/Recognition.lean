import IrafCl.Proofs.Chart.Saturation
import IrafCl.Proofs.Grammar.First

/-!
# What a chart knows

The sets of a chart obey laws that hold at every position (`Lawful`): items stand for spans, every item
has been worked off, and every advanced item can be traced back, over a link or over a token. The laws
are kept by each further set (`Lawful.push`), so every chart obeys them, also one that is abandoned.

From the laws alone follows that a chart knows all spans: an item whose next symbols span the tokens up
to a position is found at that position, advanced (`Lawful.at_of_spans`), and as long as the tokens can
be derived, some item waits for the next one (`Lawful.exists_waiting`). So the tokens are refused exactly
if the start rule does not span them (`recognise_spec`).
-/

namespace IrafCl.Chart

variable {κ : Type} {g : Grammar κ}

/-- An item is in the set at a position. -/
def At (sets : Array (StateSet g)) (k : Nat) (it : Item g) : Prop :=
  ∃ set, sets[k]? = some set ∧ it ∈ set.items

/-- A completed item stands in a link at a position. -/
def LinkAt (sets : Array (StateSet g)) (k : Nat) (advanced child : Item g) : Prop :=
  ∃ set, sets[k]? = some set ∧ (advanced, child) ∈ set.links

/-- The symbol ahead of a position. -/
def aheadAt [Alphabet κ] (ts : List (Token κ)) (k : Nat) : κ := (ts[k]?.map (·.kind)).getD Alphabet.eof

section
variable {sets : Array (StateSet g)} {set : StateSet g} {k : Nat} {it child : Item g}

theorem At.lt (h : At sets k it) : k < sets.size := by
  obtain ⟨set, hset, _⟩ := h
  rcases Nat.lt_or_ge k sets.size with hlt | hge
  · exact hlt
  · rw [Array.getElem?_eq_none hge] at hset; cases hset

theorem at_push : At (sets.push set) k it ↔ At sets k it ∨ (k = sets.size ∧ it ∈ set.items) := by
  unfold At
  rw [Array.getElem?_push]
  split
  · next hk =>
    subst hk
    rw [Array.getElem?_eq_none (Nat.le_refl _)]
    simp
  · next hk => simp [hk]

theorem linkAt_push : LinkAt (sets.push set) k it child ↔
    LinkAt sets k it child ∨ (k = sets.size ∧ (it, child) ∈ set.links) := by
  unfold LinkAt
  rw [Array.getElem?_push]
  split
  · next hk =>
    subst hk
    rw [Array.getElem?_eq_none (Nat.le_refl _)]
    simp
  · next hk => simp [hk]

theorem LinkAt.lt (h : LinkAt sets k it child) : k < sets.size := by
  obtain ⟨set, hset, _⟩ := h
  rcases Nat.lt_or_ge k sets.size with hlt | hge
  · exact hlt
  · rw [Array.getElem?_eq_none hge] at hset; cases hset

/-- The items of a set that is being closed and of the sets before it, as the chart will have them. -/
theorem at_push_of_itemsAt {c : Closing g} {set : StateSet g} {k : Nat} {it : Item g} (hset : set.items = c.items)
    (hk : k ≤ sets.size) (h : it ∈ c.itemsAt sets k) : At (sets.push set) k it := by
  unfold Closing.itemsAt at h
  split at h
  · next old hold => exact at_push.mpr (.inl ⟨old, hold, h⟩)
  · next hnone =>
    have : sets.size ≤ k := by simpa using hnone
    exact at_push.mpr (.inr ⟨by omega, hset ▸ h⟩)

end

variable [DecidableEq κ]

/-- An item that was carried over a token: it waited for the token at the position before. -/
structure Scanned (ts : List (Token κ)) (sets : Array (StateSet g)) (k : Nat) (p : Item g) (t : Token κ) :
    Prop where
  waits : At sets k p
  token : ts[k]? = some t
  next : p.next? = some t.kind
  terminal : g.isNonterminal t.kind = false

/-- The laws of a chart. -/
structure Lawful [Alphabet κ] (ts : List (Token κ)) (table : Lookaheads κ) (sets : Array (StateSet g)) :
    Prop where
  nodup : ∀ (k : Nat) (set : StateSet g), sets[k]? = some set → set.items.Nodup
  sits : ∀ k it, At sets k it → it.Sits ts k
  start : 0 < sets.size → At sets 0 ⟨g.first, 0, 0⟩
  predicted : ∀ k it s, At sets k it → it.next? = some s → g.isNonterminal s = true →
    ∀ r ∈ g.candidates table s (aheadAt ts k), At sets k ⟨r, 0, k⟩
  completed : ∀ k child p, At sets k child → child.isComplete = true → At sets child.origin p →
    p.next? = some child.lhs → At sets k p.advance
  scanned : ∀ k p t, Scanned ts sets k p t → k + 1 < sets.size → At sets (k + 1) p.advance
  linked : ∀ k it child, LinkAt sets k it child → At sets k child ∧ child.isComplete = true ∧
    ∃ p, At sets child.origin p ∧ p.next? = some child.lhs ∧ p.advance = it
  reached : ∀ k it, At sets k it → it.dot = 0 ∨ (∃ child, LinkAt sets k it child) ∨
    ∃ j p t, k = j + 1 ∧ Scanned ts sets j p t ∧ p.advance = it

/-- What the next set grows from. -/
structure Kernel (ts : List (Token κ)) (sets : Array (StateSet g)) (kernel : List (Item g)) : Prop where
  nodup : kernel.Nodup
  sits : ∀ it ∈ kernel, it.Sits ts sets.size
  start : sets.size = 0 → ⟨g.first, 0, 0⟩ ∈ kernel
  scanned : ∀ k p t, sets.size = k + 1 → Scanned ts sets k p t → p.advance ∈ kernel
  reached : ∀ it ∈ kernel, it.dot = 0 ∨ ∃ j p t, sets.size = j + 1 ∧ Scanned ts sets j p t ∧ p.advance = it

variable {ts : List (Token κ)} {sets : Array (StateSet g)} {kernel : List (Item g)}

theorem Scanned.push {set : StateSet g} {k : Nat} {p : Item g} {t : Token κ} (h : Scanned ts sets k p t) :
    Scanned ts (sets.push set) k p t := ⟨at_push.mpr (.inl h.waits), h.token, h.next, h.terminal⟩

theorem Scanned.of_push {set : StateSet g} {k : Nat} {p : Item g} {t : Token κ} (hk : k < sets.size)
    (h : Scanned ts (sets.push set) k p t) : Scanned ts sets k p t := by
  rcases at_push.mp h.waits with hw | ⟨e, _⟩
  · exact ⟨hw, h.token, h.next, h.terminal⟩
  · omega

variable {table : Lookaheads κ}

/-! ## Kernels -/

theorem kernel_start : Kernel (g := g) ts #[] [⟨g.first, 0, 0⟩] := by
  refine ⟨by simp, ?_, by simp, ?_, ?_⟩
  · intro it hit
    rw [List.mem_singleton] at hit
    subst hit
    exact ⟨Nat.zero_le _, .nil 0⟩
  · intro k p t hk; simp at hk
  · intro it hit
    rw [List.mem_singleton] at hit
    subst hit
    exact .inl rfl

theorem sits_scanned {p : Item g} {t : Token κ} {k : Nat} (hp : p.Sits ts k) (ht : ts[k]? = some t)
    (hnext : p.next? = some t.kind) (hn : g.isNonterminal t.kind = false) : p.advance.Sits ts (k + 1) := by
  refine ⟨Item.dot_lt_of_next? hnext, ?_⟩
  have hspan := hp.spans.append (Grammar.Spans.single_terminal ht hn)
  rw [← Item.take_succ_of_next? hnext] at hspan
  exact hspan

theorem mem_scanned {set : StateSet g} {kind : κ} {it : Item g} :
    it ∈ scanned set kind ↔
      g.isNonterminal kind = false ∧ ∃ p ∈ set.items, p.next? = some kind ∧ p.advance = it := by
  simp only [scanned, List.mem_map, List.mem_filter, Bool.and_eq_true, decide_eq_true_eq, Bool.not_eq_true']
  constructor
  · rintro ⟨p, ⟨hp, hnext, hn⟩, hadv⟩
    exact ⟨hn, p, hp, hnext, hadv⟩
  · rintro ⟨hn, p, hp, hnext, hadv⟩
    exact ⟨p, ⟨hp, hnext, hn⟩, hadv⟩

/-- The closing loop starts from the kernel. -/
theorem running_kernel {ahead : κ} (h : Kernel ts sets kernel) :
    Closing.Running ts table sets sets.size ahead kernel ⟨[], kernel, []⟩ := by
  have hitems : Closing.items ⟨[], kernel, []⟩ = kernel := rfl
  refine ⟨⟨h.nodup, List.Subset.refl _, h.sits, by simp, fun it hit => .inl hit⟩, ?_, by simp⟩
  intro child hdone
  simp at hdone

/-! ## The next set -/

variable [Alphabet κ]

theorem running_stateSet (ahead : κ) (hl : Lawful ts table sets) (hk : Kernel ts sets kernel) :
    ∃ c : Closing g, stateSet table sets sets.size ahead kernel = ⟨c.items, c.links.reverse⟩ ∧
      Closing.Running ts table sets sets.size ahead kernel c ∧ c.todo = [] := by
  have hearlier : ∀ k set, sets[k]? = some set → ∀ it ∈ set.items, Item.Sits ts k it :=
    fun k set hset it hit => hl.sits k it ⟨set, hset, hit⟩
  obtain ⟨hr, ht⟩ := Closing.running_close rfl hearlier (itemBound g sets.size) ⟨[], kernel, []⟩
    (running_kernel hk) (by simp)
  exact ⟨_, rfl, hr, ht⟩

/-- The laws hold of a chart with one more set. -/
theorem Lawful.push (hl : Lawful ts table sets) (hk : Kernel ts sets kernel) :
    Lawful ts table (sets.push (stateSet table sets sets.size (aheadAt ts sets.size) kernel)) := by
  obtain ⟨c, hset, hr, htodo⟩ := running_stateSet (aheadAt ts sets.size) hl hk
  rw [hset]
  have hdone : ∀ it ∈ c.items, it ∈ c.done := by
    intro it hit
    simpa [Closing.items, htodo] using hit
  have hnew : ∀ {it}, it ∈ c.items → At (sets.push ⟨c.items, c.links.reverse⟩) sets.size it :=
    fun hit => at_push.mpr (.inr ⟨rfl, hit⟩)
  constructor
  case nodup =>
    intro k set hget
    rw [Array.getElem?_push] at hget
    split at hget
    · cases hget; exact hr.sound.nodup
    · exact hl.nodup k set hget
  case sits =>
    intro k it hat
    rcases at_push.mp hat with hat | ⟨rfl, hit⟩
    · exact hl.sits k it hat
    · exact hr.sound.sits it hit
  case start =>
    intro _
    rcases Nat.eq_zero_or_pos sets.size with h0 | hpos
    · exact at_push.mpr (.inr ⟨h0.symm, hr.sound.grown (hk.start h0)⟩)
    · exact at_push.mpr (.inl (hl.start hpos))
  case predicted =>
    intro k it s hat hnext hnt r hcand
    rcases at_push.mp hat with hat | ⟨rfl, hit⟩
    · exact at_push.mpr (.inl (hl.predicted k it s hat hnext hnt r hcand))
    · exact hnew ((hr.worked it (hdone it hit)).predicts s hnext hnt r hcand)
  case completed =>
    intro k child p hat hcomplete hp hnext
    rcases at_push.mp hat with hat | ⟨rfl, hit⟩
    · -- an old set, so the origin is an old one too
      have hlt := hat.lt
      have hle := (hl.sits k child hat).spans.le
      rcases at_push.mp hp with hp | ⟨e, _⟩
      · exact at_push.mpr (.inl (hl.completed k child p hat hcomplete hp hnext))
      · omega
    · rcases at_push.mp hp with ⟨set, hget, hmem⟩ | ⟨ho, hmem⟩
      · exact hnew ((hr.worked child (hdone child hit)).completes hcomplete set hget p hmem hnext)
      · exact hnew (hr.settled child (hdone child hit) hcomplete ho p hmem id hnext)
  case scanned =>
    intro k p t hs hlt
    rw [Array.size_push] at hlt
    have hs' := hs.of_push (by omega)
    rcases Nat.lt_or_ge (k + 1) sets.size with hlt' | hge
    · exact at_push.mpr (.inl (hl.scanned k p t hs' hlt'))
    · have hsize : sets.size = k + 1 := by omega
      exact at_push.mpr (.inr ⟨hsize.symm, hr.sound.grown (hk.scanned k p t hsize hs')⟩)
  case linked =>
    intro k it child hlink
    rcases linkAt_push.mp hlink with hlink | ⟨rfl, hmem⟩
    · obtain ⟨hc, hcomplete, p, hp, hnext, hadv⟩ := hl.linked k it child hlink
      exact ⟨at_push.mpr (.inl hc), hcomplete, p, at_push.mpr (.inl hp), hnext, hadv⟩
    · have hlinked := hr.sound.linked (it, child) (by simpa using hmem)
      obtain ⟨p, hp, hnext, hadv⟩ := hlinked.parent
      have hle := (hr.sound.sits child hlinked.mem).spans.le
      exact ⟨hnew hlinked.mem, hlinked.complete, p, at_push_of_itemsAt rfl hle hp, hnext, hadv⟩
  case reached =>
    intro k it hat
    rcases at_push.mp hat with hat | ⟨rfl, hit⟩
    · rcases hl.reached k it hat with h0 | ⟨child, hlink⟩ | ⟨j, p, t, hj, hs, hadv⟩
      · exact .inl h0
      · exact .inr (.inl ⟨child, linkAt_push.mpr (.inl hlink)⟩)
      · exact .inr (.inr ⟨j, p, t, hj, hs.push, hadv⟩)
    · rcases hr.sound.reached it hit with hker | h0 | ⟨child, hlink⟩
      · rcases hk.reached it hker with h0 | ⟨j, p, t, hj, hs, hadv⟩
        · exact .inl h0
        · exact .inr (.inr ⟨j, p, t, hj, hs.push, hadv⟩)
      · exact .inl h0
      · exact .inr (.inl ⟨child, linkAt_push.mpr (.inr ⟨rfl, by simpa using hlink⟩)⟩)

/-- What the last set of a chart carries over a token is the kernel of the next. -/
theorem kernel_scanned {set : StateSet g} {t : Token κ} {k : Nat} (hl : Lawful ts table sets)
    (hk : sets.size = k + 1) (hset : sets[k]? = some set) (ht : ts[k]? = some t) :
    Kernel ts sets (scanned set t.kind) := by
  refine ⟨?_, ?_, by omega, ?_, ?_⟩
  · exact ((hl.nodup k set hset).filter _).map Item.advance_injective
  · intro it hit
    obtain ⟨hn, p, hp, hnext, rfl⟩ := mem_scanned.mp hit
    rw [hk]
    exact sits_scanned (hl.sits k p ⟨set, hset, hp⟩) ht hnext hn
  · intro j p t' hj hs
    obtain rfl : j = k := by omega
    obtain ⟨set', hset', hp⟩ := hs.waits
    rw [hset] at hset'
    cases hset'
    have htt := hs.token
    rw [ht] at htt
    cases htt
    exact mem_scanned.mpr ⟨hs.terminal, p, hp, hs.next, rfl⟩
  · intro it hit
    obtain ⟨hn, p, hp, hnext, hadv⟩ := mem_scanned.mp hit
    exact .inr ⟨k, p, t, hk, ⟨⟨set, hset, hp⟩, ht, hnext, hn⟩, hadv⟩

theorem lawful_empty : Lawful (g := g) ts table #[] := by
  have hnone : ∀ k it, ¬ At (g := g) #[] k it := fun k it h => by simpa using h.lt
  refine ⟨fun k set h => by simp at h, fun k it h => absurd h (hnone k it), by simp,
    fun k it s h => absurd h (hnone k it), fun k c p h => absurd h (hnone k c), by simp,
    fun k it c h => by simpa using h.lt, fun k it h => absurd h (hnone k it)⟩

/-! ## What the laws tell -/

/-- A rule that spans tokens is predicted where an item waits for it: the lookaheads do not hide it. -/
theorem Lawful.predicted_of_spans (hl : Lawful ts g.lookaheads sets)
    (hahead : ∀ k < sets.size, aheadAt ts k ∈ g.terminals) {r : g.Index} {i k : Nat} {it : Item g}
    (hr : g.Spans ts (g.rule r).rhs i k) (hat : At sets i it) (hnext : it.next? = some (g.rule r).lhs) :
    At sets i ⟨r, 0, i⟩ := by
  refine hl.predicted i it _ hat hnext (Grammar.isNonterminal_lhs r) r ?_
  refine Grammar.mem_candidates_of_spans hr (hahead i hat.lt) fun t ht => ?_
  rw [aheadAt, ht, Option.map_some, Option.getD_some]

/-- Where the predicted rule is completed, the item that waits for it is advanced. -/
theorem Lawful.advanced_of_spans (hl : Lawful ts g.lookaheads sets)
    (hahead : ∀ k < sets.size, aheadAt ts k ∈ g.terminals) {r : g.Index} {i k : Nat} {it : Item g}
    (hr : g.Spans ts (g.rule r).rhs i k) (hat : At sets i it) (hnext : it.next? = some (g.rule r).lhs)
    (hread : At sets i ⟨r, 0, i⟩ → At sets k ⟨r, 0 + (g.rule r).rhs.length, i⟩) : At sets k it.advance := by
  have hdone := hread (hl.predicted_of_spans hahead hr hat hnext)
  refine hl.completed k _ it hdone ?_ hat hnext
  rw [Item.isComplete_iff, Nat.zero_add]

/-- A chart has every span: where the next symbols of an item span tokens, it is found behind them. -/
theorem Lawful.at_of_spans (hl : Lawful ts g.lookaheads sets)
    (hahead : ∀ k < sets.size, aheadAt ts k ∈ g.terminals) {α : List κ} {i j : Nat}
    (h : g.Spans ts α i j) : ∀ {it : Item g} {β : List κ}, At sets i it → it.rest = α ++ β →
      j < sets.size → At sets j { it with dot := it.dot + α.length } := by
  induction h with
  | nil i => intro it β hat _ _; exact hat
  | @terminal t rest i j ht hn hspan ih =>
    intro it β hat hrest hj
    have hle := hspan.le
    have hnext := hl.scanned i it t ⟨hat, ht, Item.next?_of_rest hrest, hn⟩ (by omega)
    have hdot : it.dot + (t.kind :: rest).length = it.advance.dot + rest.length := by
      simp only [List.length_cons, Item.advance]; omega
    rw [hdot]
    exact ih hnext (Item.rest_advance hrest) hj
  | @nonterminal r rest i k j hr hspan ih₁ ih₂ =>
    intro it β hat hrest hj
    have hik := hr.le
    have hkj := hspan.le
    have hat' := hl.advanced_of_spans hahead hr hat (Item.next?_of_rest hrest)
      (fun h₀ => ih₁ (β := []) h₀ (by simp [Item.rest]) (by omega))
    have hdot : it.dot + ((g.rule r).lhs :: rest).length = it.advance.dot + rest.length := by
      simp only [List.length_cons, Item.advance]; omega
    rw [hdot]
    exact ih₂ hat' (Item.rest_advance hrest) hj

/-- While an item's next symbols are being read, some item waits for the next token. -/
theorem Lawful.exists_waiting (hl : Lawful ts g.lookaheads sets)
    (hahead : ∀ k < sets.size, aheadAt ts k ∈ g.terminals) {α : List κ} {i j : Nat}
    (h : g.Spans ts α i j) : ∀ {it : Item g} {β : List κ} {m : Nat}, At sets i it → it.rest = α ++ β →
      i ≤ m → m < j → m < sets.size → ∃ p t, Scanned ts sets m p t := by
  induction h with
  | nil i => intro it β m _ _ him hmj; omega
  | @terminal t rest i j ht hn hspan ih =>
    intro it β m hat hrest him hmj hm
    have hs : Scanned ts sets i it t := ⟨hat, ht, Item.next?_of_rest hrest, hn⟩
    rcases Nat.eq_or_lt_of_le him with rfl | hlt
    · exact ⟨it, t, hs⟩
    · exact ih (hl.scanned i it t hs (by omega)) (Item.rest_advance hrest) hlt hmj hm
  | @nonterminal r rest i k j hr hspan ih₁ ih₂ =>
    intro it β m hat hrest him hmj hm
    have hnext := Item.next?_of_rest hrest
    rcases Nat.lt_or_ge m k with hmk | hkm
    · have h₀ := hl.predicted_of_spans hahead hr hat hnext
      exact ih₁ (β := []) h₀ (by simp [Item.rest]) him hmk hm
    · have hat' := hl.advanced_of_spans hahead hr hat hnext
        (fun h₀ => hl.at_of_spans hahead hr (β := []) h₀ (by simp [Item.rest]) (by omega))
      exact ih₂ hat' (Item.rest_advance hrest) hkm hmj hm

/-- An item is in the chart with its dot at the beginning, where it began. -/
theorem Lawful.at_begin (hl : Lawful ts table sets) : ∀ {k : Nat} {it : Item g}, At sets k it →
    At sets it.origin { it with dot := 0 } := by
  intro k it hat
  generalize hdot : it.dot = n
  induction n generalizing it k with
  | zero =>
    have hspan := (hl.sits k it hat).spans
    rw [hdot, List.take_zero] at hspan
    cases hspan
    rw [← hdot]
    exact hat
  | succ n ih =>
    rcases hl.reached k it hat with h0 | ⟨child, hlink⟩ | ⟨j, p, t, -, hscan, rfl⟩
    · omega
    · obtain ⟨-, -, p, hp, -, rfl⟩ := hl.linked k it child hlink
      have hbegin := ih hp (Nat.succ.inj hdot)
      exact hbegin
    · have hbegin := ih hscan.waits (Nat.succ.inj hdot)
      exact hbegin

/-! ## Reading the tokens -/

/-- The tokens are closed by the end of input. -/
def Closed (ts : List (Token κ)) : Prop := ∃ t, ts.getLast? = some t ∧ t.kind = Alphabet.eof

theorem aheadAt_mem_terminals (hc : Closed ts) (h : g.Spans ts (g.rule g.first).rhs 0 ts.length) (k : Nat) :
    aheadAt ts k ∈ g.terminals := by
  have hall : ∀ (m : Nat) (t : Token κ), ts[m]? = some t → t.kind ∈ g.terminals := by
    intro m t ht
    have hm := (List.getElem?_eq_some_iff.mp ht).1
    exact Grammar.mem_terminals_of_spans h (fun s hs hn => Grammar.mem_terminals.mpr ⟨hn, g.first, hs⟩)
      m (Nat.zero_le m) hm t ht
  unfold aheadAt
  cases ht : ts[k]? with
  | some t => exact hall k t ht
  | none =>
    obtain ⟨last, hlast, heof⟩ := hc
    rw [List.getLast?_eq_getElem?] at hlast
    have := hall _ last hlast
    rwa [heof] at this

/-- How reading ends: with a chart that has the accepting item behind the last token, or at a token of
a list that the start rule does not span. -/
def Ends (g : Grammar κ) (ts : List (Token κ)) : Except Failure (Chart g) → Prop
  | .ok chart => Lawful ts g.lookaheads chart.sets ∧ chart.sets.size = ts.length + 1 ∧
      At chart.sets ts.length (accepting g)
  | .error f => (∃ t ∈ ts, f = syntaxFailure t) ∧ ¬ g.Spans ts (g.rule g.first).rhs 0 ts.length

/-- The chart of a list that the start rule spans has the accepting item. -/
theorem Lawful.at_accepting (hl : Lawful ts g.lookaheads sets) (hc : Closed ts)
    (h : g.Spans ts (g.rule g.first).rhs 0 ts.length) (hsize : ts.length < sets.size) :
    At sets ts.length (accepting g) := by
  have hat := hl.at_of_spans (fun k _ => aheadAt_mem_terminals hc h k) h (β := [])
    (hl.start (by omega)) (by simp [Item.rest]) hsize
  simpa [accepting] using hat

/-- The set that grows from a kernel, with the first of the tokens that are still to be read ahead. -/
abbrev nextSet (table : Lookaheads κ) (sets : Array (StateSet g)) (kernel : List (Item g)) (rest : List (Token κ)) :
    StateSet g := stateSet table sets sets.size (aheadAt rest 0) kernel

/-- Some tokens were read: the chart so far is lawful, and there is what its next set grows from. -/
structure Stage (ts : List (Token κ)) (table : Lookaheads κ) (sets : Array (StateSet g)) (kernel : List (Item g))
    (last : Option (Token κ)) (rest : List (Token κ)) : Prop where
  lawful : Lawful ts table sets
  kernel : Kernel ts sets kernel
  size_le : sets.size ≤ ts.length
  last : last = (ts.take sets.size).getLast?
  rest : ts.drop sets.size = rest

section
variable {last : Option (Token κ)} {t : Token κ} {rest : List (Token κ)}

theorem stage_start : Stage (g := g) ts table #[] [⟨g.first, 0, 0⟩] none ts :=
  ⟨lawful_empty, kernel_start, Nat.zero_le _, rfl, rfl⟩

theorem Stage.aheadAt_eq (h : Stage ts table sets kernel last rest) : aheadAt ts sets.size = aheadAt rest 0 := by
  rw [aheadAt, aheadAt, ← h.rest, List.getElem?_drop, Nat.add_zero]

theorem Stage.token (h : Stage ts table sets kernel last (t :: rest)) : ts[sets.size]? = some t := by
  rw [← List.head?_drop, h.rest, List.head?_cons]

theorem Stage.size_eq (h : Stage ts table sets kernel last []) : sets.size = ts.length :=
  Nat.le_antisymm h.size_le (List.drop_eq_nil_iff.mp h.rest)

/-- When all tokens were read, the last of them is the token before. -/
theorem Stage.last_eq (h : Stage ts table sets kernel last []) : last = ts.getLast? := by
  rw [h.last, h.size_eq, List.take_length]

theorem Stage.push (h : Stage ts table sets kernel last rest) :
    Lawful ts table (sets.push (nextSet table sets kernel rest)) := by
  have hpush := h.lawful.push h.kernel
  rwa [h.aheadAt_eq] at hpush

theorem Stage.next (h : Stage ts table sets kernel last (t :: rest)) :
    Stage ts table (sets.push (nextSet table sets kernel (t :: rest)))
      (scanned (nextSet table sets kernel (t :: rest)) t.kind) (some t) rest := by
  have hlt := (List.getElem?_eq_some_iff.mp h.token).1
  refine ⟨h.push, kernel_scanned h.push (by simp) (by simp) h.token, ?_, ?_, ?_⟩
  · rw [Array.size_push]
    exact hlt
  · rw [Array.size_push, List.take_add_one, h.token, Option.toList_some, List.getLast?_concat]
  · rw [Array.size_push, ← List.tail_drop, h.rest, List.tail_cons]

end

/-- How reading goes on, and how it ends: all tokens were read, with the accepting item in the last set or without it,
or no item waits for the next token, or the chart grows by one set. -/
inductive Run (ts : List (Token κ)) (table : Lookaheads κ) : Array (StateSet g) → List (Item g) → Option (Token κ) →
    List (Token κ) → Except Failure (Chart g) → Prop where
  | accepted {sets : Array (StateSet g)} {kernel : List (Item g)} {last : Option (Token κ)}
      (hstage : Stage ts table sets kernel last [])
      (haccept : last = none ∨ accepting g ∈ (nextSet table sets kernel []).items) :
      Run ts table sets kernel last [] (.ok ⟨sets.push (nextSet table sets kernel [])⟩)
  | ended {sets : Array (StateSet g)} {kernel : List (Item g)} {last : Token κ}
      (hstage : Stage ts table sets kernel (some last) [])
      (haccept : accepting g ∉ (nextSet table sets kernel []).items) :
      Run ts table sets kernel (some last) [] (.error (syntaxFailure last))
  | refused {sets : Array (StateSet g)} {kernel : List (Item g)} {last : Option (Token κ)} {t : Token κ}
      {rest : List (Token κ)} (hstage : Stage ts table sets kernel last (t :: rest))
      (hnone : scanned (nextSet table sets kernel (t :: rest)) t.kind = []) :
      Run ts table sets kernel last (t :: rest) (.error (syntaxFailure t))
  | next {sets : Array (StateSet g)} {kernel : List (Item g)} {last : Option (Token κ)} {t : Token κ}
      {rest : List (Token κ)} {answer : Except Failure (Chart g)}
      (hstage : Stage ts table sets kernel last (t :: rest))
      (hsome : scanned (nextSet table sets kernel (t :: rest)) t.kind ≠ [])
      (hrest : Run ts table (sets.push (nextSet table sets kernel (t :: rest)))
        (scanned (nextSet table sets kernel (t :: rest)) t.kind) (some t) rest answer) :
      Run ts table sets kernel last (t :: rest) answer

theorem run_recogniseFrom (rest : List (Token κ)) : ∀ (sets : Array (StateSet g)) (kernel : List (Item g))
    (last : Option (Token κ)), Stage ts table sets kernel last rest →
      Run ts table sets kernel last rest (recogniseFrom table sets sets.size kernel last rest).2 := by
  induction rest with
  | nil =>
    intro sets kernel last hstage
    simp only [recogniseFrom]
    cases hacc : (nextSet table sets kernel []).items.contains (accepting g) with
    | true =>
      have hset : (stateSet table sets sets.size Alphabet.eof kernel).items.contains (accepting g) = true := hacc
      rw [hset]
      exact .accepted hstage (.inr (List.contains_iff_mem.mp hacc))
    | false =>
      have hset : (stateSet table sets sets.size Alphabet.eof kernel).items.contains (accepting g) = false := hacc
      rw [hset]
      cases last with
      | none => exact .accepted hstage (.inl rfl)
      | some t => exact .ended hstage fun hmem => Bool.eq_false_iff.mp hacc (List.contains_iff_mem.mpr hmem)
  | cons t rest ih =>
    intro sets kernel last hstage
    simp only [recogniseFrom]
    split
    · next hnone => exact .refused hstage hnone
    · next hsome =>
      have hrest := ih _ _ _ hstage.next
      rw [Array.size_push] at hrest
      exact .next hstage hsome hrest

/-- Tokens are read in such a run. -/
theorem run_recognise (table : Lookaheads κ) (ts : List (Token κ)) :
    Run (g := g) ts table #[] [⟨g.first, 0, 0⟩] none ts (recognise g table ts).2 :=
  run_recogniseFrom ts #[] _ none stage_start

theorem Run.ends (hc : Closed ts) {last : Option (Token κ)} {rest : List (Token κ)} {answer : Except Failure (Chart g)}
    (h : Run ts g.lookaheads sets kernel last rest answer) : Ends g ts answer := by
  induction h with
  | @accepted sets kernel last hstage haccept =>
    refine ⟨hstage.push, by simp [hstage.size_eq], at_push.mpr (.inr ⟨hstage.size_eq.symm, ?_⟩)⟩
    rcases haccept with rfl | hmem
    · obtain ⟨t, ht, -⟩ := hc
      have hlast := hstage.last_eq
      rw [ht] at hlast
      cases hlast
    · exact hmem
  | @ended sets kernel last hstage haccept =>
    refine ⟨⟨last, List.mem_of_getLast? hstage.last_eq.symm, rfl⟩, fun hspan => ?_⟩
    rcases at_push.mp (hstage.push.at_accepting hc hspan (by simp [hstage.size_eq])) with hat | ⟨-, hmem⟩
    · have := hat.lt
      have := hstage.size_eq
      omega
    · exact haccept hmem
  | @refused sets kernel last t rest hstage hnone =>
    -- nothing waits for the token, so the start rule cannot span what follows
    refine ⟨⟨t, List.mem_of_getElem? hstage.token, rfl⟩, fun hspan => ?_⟩
    have hlt : sets.size < ts.length := (List.getElem?_eq_some_iff.mp hstage.token).1
    obtain ⟨p, t', hs⟩ := hstage.push.exists_waiting (fun k _ => aheadAt_mem_terminals hc hspan k) hspan
      (β := []) (hstage.push.start (by simp)) (by simp [Item.rest]) (Nat.zero_le _) hlt (by simp)
    have hmem := hstage.next.kernel.scanned _ p t' (by simp) hs
    rw [hnone] at hmem
    cases hmem
  | next _ _ _ ih => exact ih

/-- Reading a closed list gives its chart, or fails at a token, and then the start rule does not span
the list. -/
theorem recognise_spec (hc : Closed ts) : Ends g ts (recognise g g.lookaheads ts).2 := (run_recognise _ ts).ends hc

theorem withEnd_ne_nil (tokens : List (Token κ)) : withEnd tokens ≠ [] := by
  unfold withEnd
  split
  · simp
  · next last hlast =>
    split
    · exact List.ne_nil_of_mem (List.mem_of_getLast? hlast)
    · simp

theorem closed_withEnd (tokens : List (Token κ)) : Closed (withEnd tokens) := by
  unfold withEnd
  split
  · exact ⟨_, rfl, rfl⟩
  · next last hlast =>
    split
    · next heof => exact ⟨last, hlast, heof⟩
    · exact ⟨_, List.getLast?_concat, rfl⟩

theorem mem_of_mem_withEnd {tokens : List (Token κ)} {t : Token κ} (h : t ∈ withEnd tokens) :
    t ∈ tokens ∨ t.kind = Alphabet.eof := by
  unfold withEnd at h
  split at h
  · rw [List.mem_singleton.mp h]
    exact .inr rfl
  · split at h
    · exact .inl h
    · rcases List.mem_append.mp h with h | h
      · exact .inl h
      · rw [List.mem_singleton.mp h]
        exact .inr rfl

/-- Tokens without an end of input get one. -/
theorem withEnd_eq_append {tokens : List (Token κ)} (h : ∀ t ∈ tokens, t.kind ≠ Alphabet.eof) :
    ∃ line, withEnd tokens = tokens ++ [⟨Alphabet.eof, [], none, line⟩] := by
  unfold withEnd
  split
  · next hnone =>
    rw [List.getLast?_eq_none_iff.mp hnone]
    exact ⟨1, rfl⟩
  · next last hlast =>
    rw [if_neg (h last (List.mem_of_getLast? hlast))]
    exact ⟨last.line, rfl⟩

theorem mem_of_mem_dropLast_withEnd {tokens : List (Token κ)} {t : Token κ}
    (h : t ∈ (withEnd tokens).dropLast) : t ∈ tokens := by
  unfold withEnd at h
  split at h
  · simp at h
  · split at h
    · exact List.mem_of_mem_dropLast h
    · rwa [List.dropLast_concat] at h

end IrafCl.Chart
