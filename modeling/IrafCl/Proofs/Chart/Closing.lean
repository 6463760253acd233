import IrafCl.Chart
import IrafCl.Proofs.Grammar.Language

/-!
# Closing a state set

Whatever is done to a state set while it is closed is one of two moves: a rule of a nonterminal that some
item waits for is brought in, or an item that waits for a completed one is advanced over it, with a link
(`Move`). Every invariant of a set is proved for the two moves and carried along all of them. The set is
closed when nothing is left to do (`running_close`): a completed item advances every item that waits for
it where it began, also one that arrives later, because `addRest` looks back at the completed ones.
-/

namespace IrafCl

variable {κ : Type} {g : Grammar κ}

/-! ## Items -/

namespace Item

theorem next?_eq (it : Item g) : it.next? = (g.rule it.rule).rhs[it.dot]? := by
  rw [next?, rest, List.head?_drop]

theorem isComplete_iff {it : Item g} : it.isComplete = true ↔ (g.rule it.rule).rhs.length ≤ it.dot := by
  rw [isComplete, rest, List.isEmpty_iff, List.drop_eq_nil_iff]

theorem next?_eq_none_iff {it : Item g} : it.next? = none ↔ it.isComplete = true := by
  rw [next?_eq, isComplete_iff, List.getElem?_eq_none_iff]

theorem next?_of_rest {it : Item g} {s : κ} {rest : List κ} (h : it.rest = s :: rest) : it.next? = some s := by
  rw [next?, h, List.head?_cons]

theorem rest_advance {it : Item g} {s : κ} {rest : List κ} (h : it.rest = s :: rest) :
    it.advance.rest = rest := by
  rw [Item.rest] at h ⊢
  have : (g.rule it.rule).rhs.drop (it.dot + 1) = ((g.rule it.rule).rhs.drop it.dot).tail := by
    rw [List.tail_drop]
  rw [advance, this, h, List.tail_cons]

theorem rest_of_next? {it : Item g} {s : κ} (h : it.next? = some s) : it.rest = s :: it.advance.rest := by
  rw [next?, List.head?_eq_some_iff] at h
  obtain ⟨rest, h⟩ := h
  rw [h, rest_advance h]

theorem dot_lt_of_next? {it : Item g} {s : κ} (h : it.next? = some s) : it.dot < (g.rule it.rule).rhs.length := by
  rw [next?_eq] at h
  exact (List.getElem?_eq_some_iff.mp h).1

theorem take_succ_of_next? {it : Item g} {s : κ} (h : it.next? = some s) :
    (g.rule it.rule).rhs.take (it.dot + 1) = (g.rule it.rule).rhs.take it.dot ++ [s] := by
  rw [next?_eq] at h
  rw [List.take_add_one, h, Option.toList_some]

theorem advance_injective : Function.Injective (advance (g := g)) := by
  rintro ⟨r, d, o⟩ ⟨r', d', o'⟩ h
  simpa [advance] using h

theorem eq_back_of_advance {it p : Item g} (h : p.advance = it) : p = { it with dot := it.dot - 1 } := by
  subst h; rfl

/-- The symbol an item was advanced over is the last one before its dot. -/
theorem next?_of_reverse {it p : Item g} {before : List κ} {s s' : κ} (h : p.advance = it)
    (hbefore : s :: before = ((g.rule it.rule).rhs.take it.dot).reverse) (hnext : p.next? = some s') :
    s' = s ∧ before = ((g.rule p.rule).rhs.take p.dot).reverse := by
  subst h
  have htake := take_succ_of_next? hnext
  simp only [advance] at hbefore
  rw [htake, List.reverse_append, List.reverse_singleton, List.singleton_append] at hbefore
  obtain ⟨rfl, hb⟩ := List.cons_eq_cons.mp hbefore
  exact ⟨rfl, hb⟩

/-- The dot is in the rule, and the symbols before it derive the tokens from the origin up to `i`. -/
structure Sits [DecidableEq κ] (ts : List (Token κ)) (i : Nat) (it : Item g) : Prop where
  dot_le : it.dot ≤ (g.rule it.rule).rhs.length
  spans : g.Spans ts ((g.rule it.rule).rhs.take it.dot) it.origin i

end Item

namespace Closing

/-! ## Sets that are being closed -/

/-- The items of the set at a position: the set that is being closed stands after the earlier ones. -/
def itemsAt (c : Closing g) (earlier : Array (StateSet g)) (k : Nat) : List (Item g) :=
  match earlier[k]? with
  | some set => set.items
  | none => c.items

@[simp] theorem items_push (c : Closing g) (it : Item g) : (c.push it).items = c.items ++ [it] := by
  simp [items, push]

@[simp] theorem items_link (c : Closing g) (a b : Item g) : (c.link a b).items = c.items := rfl

@[simp] theorem done_push (c : Closing g) (it : Item g) : (c.push it).done = c.done := rfl

@[simp] theorem done_link (c : Closing g) (a b : Item g) : (c.link a b).done = c.done := rfl

@[simp] theorem links_link (c : Closing g) (a b : Item g) : (c.link a b).links = (a, b) :: c.links := rfl

theorem mem_items_of_mem_done {c : Closing g} {it : Item g} (h : it ∈ c.done) : it ∈ c.items := by
  simp [items, h]

theorem mem_itemsAt_of_subset {c c' : Closing g} {earlier : Array (StateSet g)} {k : Nat} {it : Item g}
    (hsub : c.items ⊆ c'.items) (h : it ∈ c.itemsAt earlier k) : it ∈ c'.itemsAt earlier k := by
  unfold itemsAt at h ⊢
  split at h
  · exact h
  · exact hsub h

/-- A link in the set at position `i`: an item that waited where the completed one began was advanced. -/
structure Linked (earlier : Array (StateSet g)) (c : Closing g) (advanced child : Item g) : Prop where
  mem : child ∈ c.items
  complete : child.isComplete = true
  parent : ∃ p ∈ c.itemsAt earlier child.origin, p.next? = some child.lhs ∧ p.advance = advanced

theorem Linked.mono {earlier : Array (StateSet g)} {c c' : Closing g} {a b : Item g} (hsub : c.items ⊆ c'.items)
    (h : Linked earlier c a b) : Linked earlier c' a b := by
  obtain ⟨p, hp, hn, ha⟩ := h.parent
  exact ⟨hsub h.mem, h.complete, p, mem_itemsAt_of_subset hsub hp, hn, ha⟩

variable [DecidableEq κ]

/-- Appends an item that is not there. -/
def insert (c : Closing g) (it : Item g) : Closing g := if c.seen it then c else c.push it

theorem seen_iff {c : Closing g} {it : Item g} : c.seen it = true ↔ it ∈ c.items := by
  simp [seen, items]

@[simp] theorem done_insert (c : Closing g) (it : Item g) : (c.insert it).done = c.done := by
  unfold insert; split <;> rfl

@[simp] theorem links_insert (c : Closing g) (it : Item g) : (c.insert it).links = c.links := by
  unfold insert; split <;> rfl

theorem mem_items_insert {c : Closing g} {it x : Item g} : x ∈ (c.insert it).items ↔ x ∈ c.items ∨ x = it := by
  unfold insert
  split
  · next h =>
    rw [seen_iff] at h
    exact ⟨.inl, fun hx => hx.elim id fun e => e ▸ h⟩
  · simp

theorem mem_completedHere {c : Closing g} {i : Nat} {s : κ} {it : Item g} :
    it ∈ c.completedHere i s ↔ it ∈ c.done ∧ it.isComplete = true ∧ it.origin = i ∧ it.lhs = s := by
  simp [completedHere, and_assoc]

theorem mem_waiting {items : List (Item g)} {s : κ} {it : Item g} :
    it ∈ waiting items s ↔ it ∈ items ∧ it.next? = some s := by
  simp [waiting]

/-! ## Moves -/

/-- What can be done to a set at position `i`. -/
inductive Move (earlier : Array (StateSet g)) (i : Nat) : Closing g → Closing g → Prop where
  | predict {c : Closing g} (r : g.Index) (h : ∃ it ∈ c.done, it.next? = some (g.rule r).lhs) :
      Move earlier i c (c.insert ⟨r, 0, i⟩)
  | advance {c : Closing g} (parent child : Item g) (hdone : child ∈ c.done)
      (hcomplete : child.isComplete = true) (hnext : parent.next? = some child.lhs)
      (hparent : parent ∈ c.itemsAt earlier child.origin) :
      Move earlier i c ((c.link parent.advance child).insert parent.advance)

/-- Any number of moves. -/
abbrev Reaches (earlier : Array (StateSet g)) (i : Nat) : Closing g → Closing g → Prop :=
  Relation.ReflTransGen (Move earlier i)

variable {earlier : Array (StateSet g)} {i : Nat} {c c' : Closing g}

theorem Reaches.done_eq (h : Reaches earlier i c c') : c'.done = c.done := by
  induction h with
  | refl => rfl
  | tail _ hm ih => cases hm <;> simpa using ih

theorem Reaches.items_subset (h : Reaches earlier i c c') : c.items ⊆ c'.items := by
  induction h with
  | refl => exact List.Subset.refl _
  | tail _ hm ih =>
    intro x hx
    cases hm <;> exact mem_items_insert.mpr (.inl (ih hx))

/-- Folding reaching steps reaches. The steps may rely on what the fold has seen of the set: what was
done stays done, and no item is lost. -/
theorem reaches_foldl {β : Type} (f : Closing g → β → Closing g) (xs : List β) :
    ∀ c : Closing g, (∀ x ∈ xs, ∀ d, d.done = c.done → c.items ⊆ d.items → Reaches earlier i d (f d x)) →
      Reaches earlier i c (xs.foldl f c) := by
  induction xs with
  | nil => intro c _; exact .refl
  | cons x xs ih =>
    intro c h
    have hx := h x (by simp) c rfl (List.Subset.refl _)
    refine hx.trans (ih (f c x) fun y hy d hd hsub => ?_)
    exact h y (by simp [hy]) d (hd.trans hx.done_eq) (List.Subset.trans hx.items_subset hsub)

theorem reaches_addRest (hi : earlier.size ≤ i) : ∀ (rest : List κ) (it : Item g) (c : Closing g),
    it.rest = rest → Reaches earlier i (c.insert it) (addRest i rest it c) := by
  intro rest
  induction rest with
  | nil => intro it c _; exact .refl
  | cons s rest ih =>
    intro it c hrest
    unfold addRest insert
    split
    · exact .refl
    · refine reaches_foldl _ _ _ fun child hchild d hd hsub => ?_
      obtain ⟨hdone, hcomplete, horigin, hlhs⟩ := mem_completedHere.mp hchild
      have hmove : Move earlier i d ((d.link it.advance child).insert it.advance) := by
        refine .advance it child (by rw [hd]; exact hdone) hcomplete ?_ ?_
        · rw [Item.next?_of_rest hrest, hlhs]
        · have : earlier[child.origin]? = none := by simp; omega
          rw [itemsAt, this]
          exact hsub (by simp)
      exact (Relation.ReflTransGen.single hmove).trans (ih it.advance _ (Item.rest_advance hrest))

theorem reaches_add (hi : earlier.size ≤ i) (it : Item g) (c : Closing g) :
    Reaches earlier i (c.insert it) (c.add i it) := reaches_addRest hi it.rest it c rfl

theorem reaches_advanceOver (hi : earlier.size ≤ i) {parent child : Item g} (hdone : child ∈ c.done)
    (hcomplete : child.isComplete = true) (hnext : parent.next? = some child.lhs)
    (hparent : parent ∈ c.itemsAt earlier child.origin) :
    Reaches earlier i c (advanceOver i child c parent) :=
  (Relation.ReflTransGen.single (.advance parent child hdone hcomplete hnext hparent)).trans
    (reaches_add hi parent.advance _)

/-- The items that an item which was completed advances. -/
def parents (earlier : Array (StateSet g)) (c : Closing g) (it : Item g) : List (Item g) :=
  waiting (c.itemsAt earlier it.origin) it.lhs

theorem process_complete {table : Lookaheads κ} {ahead : κ} {it : Item g} {before : List (Item g)}
    (h : it.next? = none) :
    process table earlier i ahead it before c = (parents earlier c it).foldl (advanceOver i it) c := by
  unfold process parents itemsAt
  rw [h]
  cases earlier[it.origin]? <;> rfl

theorem reaches_process (hi : earlier.size ≤ i) {table : Lookaheads κ} {ahead : κ} {it : Item g}
    {before : List (Item g)} (hit : it ∈ c.done) :
    Reaches earlier i c (process table earlier i ahead it before c) := by
  cases hnext : it.next? with
  | none =>
    rw [process_complete hnext]
    refine reaches_foldl _ _ _ fun parent hparent d hd hsub => ?_
    obtain ⟨hmem, hp⟩ := mem_waiting.mp hparent
    exact reaches_advanceOver hi (by rw [hd]; exact hit) (Item.next?_eq_none_iff.mp hnext) hp
      (mem_itemsAt_of_subset hsub hmem)
  | some s =>
    unfold process
    rw [hnext]
    dsimp only
    split
    · refine reaches_foldl _ _ _ fun r hr d hd _ => ?_
      have hlhs : (g.rule r).lhs = s := by
        have := (List.mem_filter.mp hr).2
        simp only [Bool.and_eq_true, decide_eq_true_eq] at this
        exact this.1
      have hmove : Move earlier i d (d.insert ⟨r, 0, i⟩) :=
        .predict r ⟨it, by rw [hd]; exact hit, by rw [hnext, hlhs]⟩
      exact (Relation.ReflTransGen.single hmove).trans (reaches_add hi _ _)
    · exact .refl

/-! ## What the moves keep -/

/-- The invariant of a set at position `i` that grows from the given items. -/
structure Sound (ts : List (Token κ)) (earlier : Array (StateSet g)) (i : Nat) (kernel : List (Item g))
    (c : Closing g) : Prop where
  nodup : c.items.Nodup
  grown : kernel ⊆ c.items
  sits : ∀ it ∈ c.items, it.Sits ts i
  linked : ∀ l ∈ c.links, Linked earlier c l.1 l.2
  reached : ∀ it ∈ c.items, it ∈ kernel ∨ it.dot = 0 ∨ ∃ child, (it, child) ∈ c.links

variable {ts : List (Token κ)} {kernel : List (Item g)}

theorem nodup_insert (it : Item g) (h : c.items.Nodup) : (c.insert it).items.Nodup := by
  unfold insert
  split
  · exact h
  · next hs =>
    rw [seen_iff] at hs
    rw [items_push]
    exact List.nodup_append.mpr ⟨h, by simp, fun a ha b hb => by simp at hb; exact fun e => hs (hb ▸ e ▸ ha)⟩

/-- An item that waits at `k` for what a completed item began there, advanced. -/
theorem sits_advance {parent child : Item g} {k : Nat} (hp : parent.Sits ts k) (hc : child.Sits ts i)
    (hk : child.origin = k) (hcomplete : child.isComplete = true) (hnext : parent.next? = some child.lhs) :
    parent.advance.Sits ts i := by
  refine ⟨Item.dot_lt_of_next? hnext, ?_⟩
  have hchild : g.Spans ts (g.rule child.rule).rhs child.origin i := by
    have := hc.spans
    rwa [List.take_of_length_le (Item.isComplete_iff.mp hcomplete)] at this
  subst hk
  have hspan : g.Spans ts (_ ++ [child.lhs]) parent.origin i := hp.spans.append hchild.single
  rw [← Item.take_succ_of_next? hnext] at hspan
  exact hspan

theorem sound_move (hi : earlier.size = i)
    (hearlier : ∀ k set, earlier[k]? = some set → ∀ it ∈ set.items, Item.Sits ts k it)
    (h : Sound ts earlier i kernel c) (hm : Move earlier i c c') : Sound ts earlier i kernel c' := by
  cases hm with
  | predict r _ =>
    refine ⟨nodup_insert _ h.nodup, fun x hx => mem_items_insert.mpr (.inl (h.grown hx)), ?_, ?_, ?_⟩
    · intro x hx
      rcases mem_items_insert.mp hx with hx | rfl
      · exact h.sits x hx
      · exact ⟨Nat.zero_le _, .nil i⟩
    · intro l hl
      rw [links_insert] at hl
      exact (h.linked l hl).mono fun x hx => mem_items_insert.mpr (.inl hx)
    · intro x hx
      rw [links_insert]
      rcases mem_items_insert.mp hx with hx | rfl
      · exact h.reached x hx
      · exact .inr (.inl rfl)
  | advance parent child hdone hcomplete hnext hparent =>
    have hchild := mem_items_of_mem_done hdone
    have hcsits := h.sits child hchild
    have hsub : c.items ⊆ ((c.link parent.advance child).insert parent.advance).items :=
      fun x hx => mem_items_insert.mpr (.inl hx)
    refine ⟨nodup_insert _ h.nodup, fun x hx => hsub (h.grown hx), ?_, ?_, ?_⟩
    · intro x hx
      rcases mem_items_insert.mp hx with hx | rfl
      · exact h.sits x hx
      · -- the parent waits in an earlier set, or in this one
        unfold itemsAt at hparent
        split at hparent
        · next set hset => exact sits_advance (hearlier _ set hset parent hparent) hcsits rfl hcomplete hnext
        · next hnone =>
          have hle : child.origin ≤ i := hcsits.spans.le
          have hge : earlier.size ≤ child.origin := by simpa using hnone
          exact sits_advance (h.sits parent hparent) hcsits (by omega) hcomplete hnext
    · intro l hl
      rw [links_insert, links_link] at hl
      rcases List.mem_cons.mp hl with rfl | hl
      · exact ⟨hsub hchild, hcomplete, parent, mem_itemsAt_of_subset hsub hparent, hnext, rfl⟩
      · exact (h.linked l hl).mono hsub
    · intro x hx
      rw [links_insert, links_link]
      rcases mem_items_insert.mp hx with hx | rfl
      · rcases h.reached x hx with hk | h0 | ⟨b, hb⟩
        · exact .inl hk
        · exact .inr (.inl h0)
        · exact .inr (.inr ⟨b, by simp [hb]⟩)
      · exact .inr (.inr ⟨child, by simp⟩)

theorem sound_reaches (hi : earlier.size = i)
    (hearlier : ∀ k set, earlier[k]? = some set → ∀ it ∈ set.items, Item.Sits ts k it)
    (h : Sound ts earlier i kernel c) (hr : Reaches earlier i c c') : Sound ts earlier i kernel c' := by
  induction hr with
  | refl => exact h
  | tail _ hm ih => exact sound_move hi hearlier ih hm

end Closing

end IrafCl
