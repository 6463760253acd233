import IrafCl.Proofs.Chart.Closing
import Mathlib.Data.List.Nodup

/-!
# Closed state sets

A set is worked off until nothing is left: there are only finitely many items that can sit at a position,
none is taken twice, and `itemBound` counts them. Then every item has brought in the rules it waits for
(`Worked`), and every completed item has advanced all that wait for it. For an item that began in the
same set this holds of later arrivals too; the invariant for it leaves out the items that are still to be
looked after (`SettledBut`), for a set is not settled in the middle of an addition.
-/

namespace IrafCl.Closing

variable {κ : Type} {g : Grammar κ} {i : Nat}

/-! ## Looking back at completed items -/

/-- What was completed in this very set has advanced all items that wait for it, but for some. -/
def SettledBut (i : Nat) (except : Item g → Prop) (c : Closing g) : Prop :=
  ∀ child ∈ c.done, child.isComplete = true → child.origin = i →
    ∀ p ∈ c.items, ¬ except p → p.next? = some child.lhs → p.advance ∈ c.items

/-- Nothing is left out. -/
abbrev Settled (i : Nat) (c : Closing g) : Prop := SettledBut i (fun _ => False) c

/-- A fold of additions that each keep the set settled but for some items keeps it so. -/
theorem settledBut_foldl {β : Type} {except : Item g → Prop} (f : Closing g → β → Closing g) (xs : List β)
    (hf : ∀ x ∈ xs, ∀ d, SettledBut i except d → SettledBut i except (f d x)) :
    ∀ c, SettledBut i except c → SettledBut i except (xs.foldl f c) := by
  induction xs with
  | nil => exact fun c h => h
  | cons x xs ih => exact fun c h => ih (fun y hy => hf y (by simp [hy])) _ (hf x (by simp) c h)

/-- A fold of additions that lose nothing keeps what one of them has added. -/
theorem mem_foldl {β : Type} {it : Item g} (f : Closing g → β → Closing g) (xs : List β)
    (hsub : ∀ x d, d.items ⊆ (f d x).items) {x : β} (hx : x ∈ xs) (hmem : ∀ d, it ∈ (f d x).items) :
    ∀ c : Closing g, it ∈ (xs.foldl f c).items := by
  have hkeep : ∀ (ys : List β) (d : Closing g), it ∈ d.items → it ∈ (ys.foldl f d).items := by
    intro ys
    induction ys with
    | nil => exact fun d h => h
    | cons y ys ih => exact fun d h => ih _ (hsub y d h)
  induction xs with
  | nil => cases hx
  | cons y xs ih =>
    intro c
    rcases List.mem_cons.mp hx with rfl | hx
    · exact hkeep xs _ (hmem c)
    · exact ih hx _

/-- The set with its next item taken from the work list. -/
def take (c : Closing g) (it : Item g) (todo : List (Item g)) : Closing g :=
  { c with done := it :: c.done, todo }

theorem items_take {c : Closing g} {it : Item g} {todo : List (Item g)} (h : c.todo = it :: todo) :
    (c.take it todo).items = c.items := by
  simp [items, take, h]

/-- All items that can sit at a position. -/
def candidatesAt (g : Grammar κ) (i : Nat) : List (Item g) :=
  g.indices.flatMap fun r => (List.range ((g.rule r).rhs.length + 1)).flatMap fun d =>
    (List.range (i + 1)).map fun o => ⟨r, d, o⟩

theorem length_candidatesAt : (candidatesAt g i).length = Chart.itemBound g i := by
  have hrules : g.indices.map g.rule = g.rules.toList := by
    rw [Grammar.indices, ← List.ofFn_eq_map]
    exact List.ext_getElem (by simp) fun n h₁ h₂ => by simp [Grammar.rule]
  have hsum : ∀ rs : List (Rule κ), (rs.map fun r => (r.rhs.length + 1) * (i + 1)).sum =
      rs.foldr (fun r n => r.rhs.length + 1 + n) 0 * (i + 1) := by
    intro rs
    induction rs with
    | nil => simp
    | cons r rs ih => rw [List.map_cons, List.sum_cons, ih, List.foldr_cons, ← Nat.add_mul]
  rw [Chart.itemBound, ← hsum, ← hrules, candidatesAt, List.length_flatMap, List.map_map]
  simp [List.length_flatMap, Function.comp_def]

variable {earlier : Array (StateSet g)} {c : Closing g} [DecidableEq κ]

theorem done_addRest (rest : List κ) (it : Item g) (c : Closing g) (h : it.rest = rest) :
    (addRest i rest it c).done = c.done := by
  have hr : Reaches #[] i (c.insert it) (addRest i rest it c) := reaches_addRest (Nat.zero_le i) rest it c h
  rw [hr.done_eq, done_insert]

theorem items_subset_addRest (rest : List κ) (it : Item g) (c : Closing g) (h : it.rest = rest) :
    c.items ⊆ (addRest i rest it c).items := by
  intro x hx
  have hr : Reaches #[] i (c.insert it) (addRest i rest it c) := reaches_addRest (Nat.zero_le i) rest it c h
  exact hr.items_subset (mem_items_insert.mpr (.inl hx))

theorem mem_addRest (rest : List κ) (it : Item g) (c : Closing g) (h : it.rest = rest) :
    it ∈ (addRest i rest it c).items := by
  have hr : Reaches #[] i (c.insert it) (addRest i rest it c) := reaches_addRest (Nat.zero_le i) rest it c h
  exact hr.items_subset (mem_items_insert.mpr (.inr rfl))

theorem settledBut_addRest : ∀ (rest : List κ) (it : Item g) (c : Closing g) (except : Item g → Prop),
    it.rest = rest → SettledBut i except c → SettledBut i except (addRest i rest it c) := by
  intro rest
  induction rest with
  | nil =>
    -- a completed item waits for nothing
    intro it c except hrest h child hdone hcomplete ho p hp hexc hnext
    have hsub := items_subset_addRest (i := i) [] it c hrest
    rw [done_addRest _ _ _ hrest] at hdone
    have hmem : p ∈ c.items ∨ p = it := by
      have : addRest i [] it c = c.insert it := rfl
      rw [this] at hp
      exact mem_items_insert.mp hp
    rcases hmem with hp | rfl
    · exact hsub (h child hdone hcomplete ho p hp hexc hnext)
    · rw [Item.next?, hrest] at hnext; cases hnext
  | cons s rest ih =>
    intro it c except hrest h
    have hdoneAll := done_addRest (i := i) _ it c hrest
    unfold addRest at hdoneAll ⊢
    split
    · exact h
    next hseen =>
    rw [if_neg hseen] at hdoneAll
    have hadv := Item.rest_advance hrest
    -- the new item itself is looked after last
    have hpush : SettledBut i (fun p => except p ∨ p = it) (c.push it) := by
      intro child hdone hcomplete ho p hp hexc hnext
      rw [items_push, List.mem_append, List.mem_singleton] at hp
      rw [items_push, List.mem_append]
      rcases hp with hp | rfl
      · exact .inl (h child hdone hcomplete ho p hp (fun e => hexc (.inl e)) hnext)
      · exact absurd (.inr rfl) hexc
    have hfold : SettledBut i (fun p => except p ∨ p = it) _ :=
      settledBut_foldl (fun c child => addRest i rest it.advance (c.link it.advance child))
        (c.completedHere i s) (fun child _ d hd => ih it.advance _ _ hadv hd) _ hpush
    intro child hdone hcomplete ho p hp hexc hnext
    by_cases hpit : p = it
    · subst hpit
      rw [hdoneAll] at hdone
      have hs : s = child.lhs := by rw [Item.next?_of_rest hrest] at hnext; exact Option.some.inj hnext
      refine mem_foldl _ _ (fun x d => items_subset_addRest rest _ (d.link _ x) hadv)
        (mem_completedHere.mpr ⟨hdone, hcomplete, ho, hs.symm⟩) (fun d => mem_addRest rest _ _ hadv) _
    · exact hfold child hdone hcomplete ho p hp (by simp [hexc, hpit]) hnext

theorem settledBut_add {except : Item g → Prop} (it : Item g) (h : SettledBut i except c) :
    SettledBut i except (c.add i it) := settledBut_addRest it.rest it c except rfl h

theorem settledBut_advanceOver {except : Item g → Prop} (child parent : Item g) (h : SettledBut i except c) :
    SettledBut i except (advanceOver i child c parent) :=
  settledBut_add (c := c.link parent.advance child) parent.advance h

theorem items_subset_add (it : Item g) (c : Closing g) : c.items ⊆ (c.add i it).items :=
  items_subset_addRest it.rest it c rfl

theorem mem_add (it : Item g) (c : Closing g) : it ∈ (c.add i it).items := mem_addRest it.rest it c rfl

theorem items_subset_advanceOver (child parent : Item g) (c : Closing g) :
    c.items ⊆ (advanceOver i child c parent).items :=
  items_subset_add parent.advance (c.link parent.advance child)

theorem mem_advanceOver (child parent : Item g) (c : Closing g) :
    parent.advance ∈ (advanceOver i child c parent).items :=
  mem_add parent.advance (c.link parent.advance child)

/-! ## Working off one item -/

/-- An item has brought in all it calls for. -/
structure Worked (table : Lookaheads κ) (earlier : Array (StateSet g)) (i : Nat) (ahead : κ) (c : Closing g)
    (it : Item g) : Prop where
  completes : it.isComplete = true → ∀ set, earlier[it.origin]? = some set →
    ∀ p ∈ set.items, p.next? = some it.lhs → p.advance ∈ c.items
  predicts : ∀ s, it.next? = some s → g.isNonterminal s = true →
    ∀ r ∈ g.candidates table s ahead, ⟨r, 0, i⟩ ∈ c.items

/-- The invariant of the loop that closes a set. -/
structure Running (ts : List (Token κ)) (table : Lookaheads κ) (earlier : Array (StateSet g)) (i : Nat)
    (ahead : κ) (kernel : List (Item g)) (c : Closing g) : Prop where
  sound : Sound ts earlier i kernel c
  settled : Settled i c
  worked : ∀ it ∈ c.done, Worked table earlier i ahead c it

variable {ts : List (Token κ)} {table : Lookaheads κ} {ahead : κ} {kernel todo : List (Item g)} {it : Item g}

theorem Worked.mono {c' : Closing g} (hsub : c.items ⊆ c'.items) (h : Worked table earlier i ahead c it) :
    Worked table earlier i ahead c' it :=
  ⟨fun hc set hset p hp hn => hsub (h.completes hc set hset p hp hn),
    fun s hs hn r hr => hsub (h.predicts s hs hn r hr)⟩

theorem sound_take (h : c.todo = it :: todo) (hs : Sound ts earlier i kernel c) :
    Sound ts earlier i kernel (c.take it todo) := by
  have hitems := items_take h
  refine ⟨hitems ▸ hs.nodup, hitems ▸ hs.grown, hitems ▸ hs.sits, fun l hl => ?_, hitems ▸ hs.reached⟩
  exact (hs.linked l hl).mono (hitems ▸ List.Subset.refl _)

omit [DecidableEq κ] in
/-- Taking an item out leaves the set settled, unless the item was completed here: then it still has to
advance what waits for it. -/
theorem settledBut_take (except : Item g → Prop) (h : c.todo = it :: todo) (hs : Settled i c)
    (hit : it.isComplete = true → it.origin = i → ∀ p ∈ c.items, p.next? = some it.lhs → except p) :
    SettledBut i except (c.take it todo) := by
  intro child hdone hcomplete ho p hp hexc hnext
  rw [items_take h] at hp ⊢
  rcases List.mem_cons.mp hdone with rfl | hdone
  · exact absurd (hit hcomplete ho p hp hnext) hexc
  · exact hs child hdone hcomplete ho p hp id hnext

theorem settled_process (hi : earlier.size = i) (h : c.todo = it :: todo) (hset : Settled i c) :
    Settled i (process table earlier i ahead it c.done (c.take it todo)) := by
  cases hnext : it.next? with
  | none =>
    rw [process_complete hnext]
    cases hget : earlier[it.origin]? with
    | some set =>
      have hlt : it.origin < earlier.size := by
        rcases Nat.lt_or_ge it.origin earlier.size with hlt | hge
        · exact hlt
        · rw [Array.getElem?_eq_none hge] at hget; cases hget
      exact settledBut_foldl _ _ (fun p _ d hd => settledBut_advanceOver it p hd) _
        (settledBut_take _ h hset fun _ ho => by omega)
    | none =>
      -- what waits for the item now is advanced by the fold, what comes later by the additions
      have hfold := settledBut_foldl (i := i) (advanceOver i it) (parents earlier (c.take it todo) it)
        (fun p _ d hd => settledBut_advanceOver it p hd) _
        (settledBut_take (fun p => p ∈ c.items ∧ p.next? = some it.lhs) h hset
          fun _ _ p hp hn => ⟨hp, hn⟩)
      intro child hdone hcomplete ho p hp _ hn
      by_cases hexc : p ∈ c.items ∧ p.next? = some it.lhs
      · have hmem : p ∈ parents earlier (c.take it todo) it := by
          rw [parents, mem_waiting, itemsAt, hget, items_take h]
          exact hexc
        exact mem_foldl _ _ (fun x d => items_subset_advanceOver it x d) hmem (fun d => mem_advanceOver it p d) _
      · exact hfold child hdone hcomplete ho p hp hexc hn
  | some s =>
    have htake : Settled i (c.take it todo) := settledBut_take _ h hset fun hcomplete => by
      rw [Item.next?_eq_none_iff.mpr hcomplete] at hnext; cases hnext
    unfold process
    rw [hnext]
    dsimp only
    split
    · exact settledBut_foldl _ _ (fun r _ d hd => settledBut_add _ hd) _ htake
    · exact htake

theorem worked_process (h : c.todo = it :: todo) (hw : ∀ d ∈ c.done, Worked table earlier i ahead c d) :
    Worked table earlier i ahead (process table earlier i ahead it c.done (c.take it todo)) it := by
  constructor
  · intro hcomplete set hget p hp hn
    rw [process_complete (Item.next?_eq_none_iff.mpr hcomplete)]
    have hmem : p ∈ parents earlier (c.take it todo) it := by
      rw [parents, mem_waiting, itemsAt, hget]
      exact ⟨hp, hn⟩
    exact mem_foldl _ _ (fun x d => items_subset_advanceOver it x d) hmem (fun d => mem_advanceOver it p d) _
  · intro s hs hnt r hr
    unfold process
    rw [hs]
    dsimp only
    split
    · exact mem_foldl (fun c r => c.add i ⟨r, 0, i⟩) _ (fun x d => items_subset_add _ d) hr
        (fun d => mem_add _ d) _
    · next hno =>
      -- an item before has waited for the same nonterminal
      have hany : ∃ d ∈ c.done, d.next? = some s := by
        simpa [hnt] using hno
      obtain ⟨d, hd, hds⟩ := hany
      rw [items_take h]
      exact (hw d hd).predicts s hds hnt r hr

theorem running_process (hi : earlier.size = i)
    (hearlier : ∀ k set, earlier[k]? = some set → ∀ it ∈ set.items, Item.Sits ts k it)
    (h : c.todo = it :: todo) (hr : Running ts table earlier i ahead kernel c) :
    Running ts table earlier i ahead kernel (process table earlier i ahead it c.done (c.take it todo)) := by
  have hreach : Reaches earlier i (c.take it todo) (process table earlier i ahead it c.done (c.take it todo)) :=
    reaches_process (Nat.le_of_eq hi) (by simp [take])
  refine ⟨sound_reaches hi hearlier (sound_take h hr.sound) hreach, settled_process hi h hr.settled, ?_⟩
  intro d hd
  rw [hreach.done_eq] at hd
  rcases List.mem_cons.mp hd with rfl | hd
  · exact worked_process h hr.worked
  · refine (hr.worked d hd).mono ?_
    rw [← items_take h]
    exact hreach.items_subset

/-! ## Counting items -/

theorem mem_candidatesAt (h : it.Sits ts i) : it ∈ candidatesAt g i := by
  simp only [candidatesAt, List.mem_flatMap, List.mem_map, List.mem_range]
  have := h.dot_le; have := h.spans.le
  exact ⟨it.rule, Grammar.mem_indices _, it.dot, by omega, it.origin, by omega, rfl⟩

theorem length_items_le (h : Sound ts earlier i kernel c) : c.items.length ≤ Chart.itemBound g i := by
  rw [← length_candidatesAt]
  exact h.nodup.length_le_of_subset fun it hit => mem_candidatesAt (h.sits it hit)

/-! ## The loop -/

theorem running_close (hi : earlier.size = i)
    (hearlier : ∀ k set, earlier[k]? = some set → ∀ it ∈ set.items, Item.Sits ts k it) :
    ∀ (fuel : Nat) (c : Closing g), Running ts table earlier i ahead kernel c →
      Chart.itemBound g i ≤ c.done.length + fuel →
      Running ts table earlier i ahead kernel (close table earlier i ahead fuel c) ∧
        (close table earlier i ahead fuel c).todo = [] := by
  intro fuel
  induction fuel with
  | zero =>
    intro c hr hfuel
    refine ⟨hr, ?_⟩
    have hlen := length_items_le hr.sound
    simp only [items, List.length_append, List.length_reverse] at hlen
    exact List.length_eq_zero_iff.mp (show c.todo.length = 0 by omega)
  | succ fuel ih =>
    intro c hr hfuel
    unfold close
    split
    · next htodo => exact ⟨hr, htodo⟩
    · next it todo htodo =>
      have hreach : Reaches earlier i (c.take it todo)
          (process table earlier i ahead it c.done (c.take it todo)) :=
        reaches_process (Nat.le_of_eq hi) (by simp [take])
      refine ih _ (running_process hi hearlier htodo hr) ?_
      show Chart.itemBound g i ≤ (process table earlier i ahead it c.done (c.take it todo)).done.length + fuel
      rw [hreach.done_eq]
      simp only [take, List.length_cons]
      omega

/-- What a sound set keeps when an item is taken and in every move, it keeps when it is closed. -/
theorem close_keeps {P : Closing g → Prop} {table : Lookaheads κ} {ahead : κ} (hi : earlier.size = i)
    (hearlier : ∀ k set, earlier[k]? = some set → ∀ it ∈ set.items, Item.Sits ts k it)
    (htake : ∀ c it todo, c.todo = it :: todo → P c → P (c.take it todo))
    (hmove : ∀ c c', Sound ts earlier i kernel c → P c → Move earlier i c c' → P c') :
    ∀ (fuel : Nat) (c : Closing g), Sound ts earlier i kernel c → P c → P (close table earlier i ahead fuel c) := by
  have hreaches : ∀ {c c'}, Sound ts earlier i kernel c → P c → Reaches earlier i c c' → P c' := by
    intro c c' hs hP hr
    induction hr with
    | refl => exact hP
    | tail hr hm ih => exact hmove _ _ (sound_reaches hi hearlier hs hr) ih hm
  intro fuel
  induction fuel with
  | zero => exact fun c _ hP => hP
  | succ fuel ih =>
    intro c hs hP
    unfold close
    split
    · exact hP
    · next it todo htodo =>
      have hreach : Reaches earlier i (c.take it todo) (process table earlier i ahead it c.done (c.take it todo)) :=
        reaches_process (Nat.le_of_eq hi) (by simp [take])
      have hs' := sound_take htodo hs
      exact ih _ (sound_reaches hi hearlier hs' hreach) (hreaches hs' (htake c it todo htodo hP) hreach)

end IrafCl.Closing
