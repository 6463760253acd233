import IrafCl.Proofs.Chart.Backwards
import Mathlib

/-!
# The links of a chart

A set that is being closed owes a link for every completed item that was worked off and every item which
waits for it where it began. An item that is worked off, or that arrives, makes the set owe links; each
step of a fold makes one of them. What is owed and what is made are together what is due, each once
(`Books`), and a closed set owes nothing. So the links of an advanced item are exactly the completed items
it can have been advanced over (`linksOf_recognise`), and a resolver is asked about all of them but those
which are being derived already (`run_choose`).
-/

namespace IrafCl

variable {κ : Type} {g : Grammar κ}

namespace Closing

variable {earlier : Array (StateSet g)} {i : Nat} {c : Closing g} {it : Item g}
  {owed : List (Item g × Item g)}

/-- A link is due: its completed item was worked off, and an item waits for it where it began. -/
structure Due (earlier : Array (StateSet g)) (c : Closing g) (l : Item g × Item g) : Prop where
  worked : l.2 ∈ c.done
  complete : l.2.isComplete = true
  parent : ∃ p ∈ c.itemsAt earlier l.2.origin, p.next? = some l.2.lhs ∧ p.advance = l.1

/-- The links that are owed and those that are made are all links that are due, each once. -/
structure Books (earlier : Array (StateSet g)) (c : Closing g) (owed : List (Item g × Item g)) : Prop where
  nodup : (owed ++ c.links).Nodup
  mem : ∀ l, l ∈ owed ++ c.links ↔ Due earlier c l

/-- What was worked off began here or before, and nothing is in the set twice. -/
structure Orderly (i : Nat) (c : Closing g) : Prop where
  nodup : c.items.Nodup
  origin_le : ∀ it ∈ c.done, it.origin ≤ i

/-- Making a link that is owed. -/
theorem Books.link {a child : Item g} (h : Books earlier c ((a, child) :: owed)) :
    Books earlier (c.link a child) owed := by
  have hperm : (owed ++ (c.link a child).links).Perm ((a, child) :: owed ++ c.links) := by
    rw [links_link]
    exact List.perm_middle
  refine ⟨hperm.nodup_iff.mpr h.nodup, fun l => ?_⟩
  rw [hperm.mem_iff, h.mem]
  exact ⟨fun hl => ⟨hl.worked, hl.complete, hl.parent⟩, fun hl => ⟨hl.worked, hl.complete, hl.parent⟩⟩

/-- More links become due, none of which was due before. -/
theorem Books.owe {c' : Closing g} {new : List (Item g × Item g)} (h : Books earlier c owed)
    (hlinks : c'.links = c.links) (hnodup : new.Nodup) (hfresh : ∀ l ∈ new, ¬ Due earlier c l)
    (hdue : ∀ l, Due earlier c' l ↔ l ∈ new ∨ Due earlier c l) : Books earlier c' (new ++ owed) := by
  constructor
  · rw [List.append_assoc, hlinks, List.nodup_append]
    refine ⟨hnodup, h.nodup, ?_⟩
    rintro l hl _ hold rfl
    exact hfresh l hl ((h.mem l).mp hold)
  · intro l
    rw [List.append_assoc, hlinks, List.mem_append, h.mem, hdue]

/-- Nothing more becomes due. -/
theorem Books.keep {c' : Closing g} (h : Books earlier c owed) (hlinks : c'.links = c.links)
    (hdue : ∀ l, Due earlier c' l ↔ Due earlier c l) : Books earlier c' owed :=
  ⟨hlinks ▸ h.nodup, fun l => by rw [hlinks, h.mem, hdue]⟩

theorem Orderly.link {a b : Item g} (h : Orderly i c) : Orderly i (c.link a b) := ⟨h.nodup, h.origin_le⟩

variable [DecidableEq κ]

theorem Orderly.addRest (h : Orderly i c) (it : Item g) {rest : List κ} (hrest : it.rest = rest) :
    Orderly i (addRest i rest it c) := by
  have hreach : Reaches #[] i (c.insert it) (Closing.addRest i rest it c) :=
    reaches_addRest (Nat.zero_le i) rest it c hrest
  refine ⟨?_, fun d hd => h.origin_le d (by rwa [done_addRest rest it c hrest] at hd)⟩
  generalize Closing.addRest i rest it c = c' at hreach
  induction hreach with
  | refl => exact nodup_insert it h.nodup
  | tail _ hm ih => cases hm <;> exact nodup_insert _ ih

/-! ## Additions -/

/-- A new item makes the set owe a link for each item it waits for that was completed here. -/
theorem Books.push (hi : earlier.size = i) (ho : Orderly i c) (h : Books earlier c owed)
    (hnew : ¬ c.seen it = true) {s : κ} (hnext : it.next? = some s) :
    Books earlier (c.push it) ((c.completedHere i s).map (it.advance, ·) ++ owed) := by
  rw [seen_iff] at hnew
  have hhere : ∀ d : Closing g, d.itemsAt earlier i = d.items := by
    intro d
    rw [itemsAt, Array.getElem?_eq_none (by omega)]
  have hnodup : (c.completedHere i s).Nodup := by
    refine (List.nodup_reverse.mpr ?_).filter _
    exact List.nodup_reverse.mp (List.nodup_append.mp ho.nodup).1
  refine h.owe rfl (hnodup.map (Prod.mk_right_injective _)) ?_ ?_
  · -- such a link is due only if the item is there
    rintro l hl hdue
    obtain ⟨child, hchild, rfl⟩ := List.mem_map.mp hl
    obtain ⟨_, _, horigin, _⟩ := mem_completedHere.mp hchild
    obtain ⟨p, hp, _, hadv⟩ := hdue.parent
    dsimp only at hp hadv
    rw [horigin, hhere, Item.advance_injective hadv] at hp
    exact hnew hp
  · rintro ⟨a, child⟩
    constructor
    · rintro ⟨hdone, hcomplete, p, hp, hpnext, rfl⟩
      by_cases horigin : child.origin = i
      · rw [horigin, hhere, items_push, List.mem_append, List.mem_singleton] at hp
        rcases hp with hp | rfl
        · refine .inr ⟨hdone, hcomplete, p, ?_, hpnext, rfl⟩
          rw [horigin, hhere]
          exact hp
        · obtain rfl : s = child.lhs := Option.some.inj (hnext.symm.trans hpnext)
          exact .inl (List.mem_map.mpr ⟨child, mem_completedHere.mpr ⟨hdone, hcomplete, horigin, rfl⟩, rfl⟩)
      · have hlt : child.origin < earlier.size := by
          have := ho.origin_le child hdone
          omega
        refine .inr ⟨hdone, hcomplete, p, ?_, hpnext, rfl⟩
        rw [itemsAt, Array.getElem?_eq_getElem hlt] at hp ⊢
        exact hp
    · rintro (hl | hdue)
      · obtain ⟨child', hchild, heq⟩ := List.mem_map.mp hl
        obtain ⟨rfl, rfl⟩ := Prod.mk.inj heq
        obtain ⟨hdone, hcomplete, horigin, hlhs⟩ := mem_completedHere.mp hchild
        refine ⟨hdone, hcomplete, it, ?_, hlhs ▸ hnext, rfl⟩
        dsimp only
        rw [horigin, hhere, items_push]
        simp
      · obtain ⟨p, hp, hpnext, hadv⟩ := hdue.parent
        refine ⟨hdue.worked, hdue.complete, p, mem_itemsAt_of_subset (fun x hx => ?_) hp, hpnext, hadv⟩
        rw [items_push]
        exact List.mem_append_left _ hx

omit [DecidableEq κ] in
/-- A new item that waits for nothing makes the set owe nothing. -/
theorem Books.push_complete (h : Books earlier c owed) (hnext : it.next? = none) :
    Books earlier (c.push it) owed := by
  refine h.keep rfl fun l => ?_
  constructor
  · rintro ⟨hdone, hcomplete, p, hp, hpnext, hadv⟩
    refine ⟨hdone, hcomplete, p, ?_, hpnext, hadv⟩
    unfold itemsAt at hp ⊢
    split at hp
    · exact hp
    · rw [items_push, List.mem_append, List.mem_singleton] at hp
      rcases hp with hp | rfl
      · exact hp
      · rw [hnext] at hpnext
        cases hpnext
  · rintro ⟨hdone, hcomplete, p, hp, hpnext, hadv⟩
    refine ⟨hdone, hcomplete, p, mem_itemsAt_of_subset (fun x hx => ?_) hp, hpnext, hadv⟩
    rw [items_push]
    exact List.mem_append_left _ hx

omit [DecidableEq κ] in
/-- A fold each step of which makes one link that is owed makes them all. -/
theorem books_foldl {β : Type} (owes : β → Item g × Item g) (f : Closing g → β → Closing g)
    (hf : ∀ (x : β) (d : Closing g) (owed : List (Item g × Item g)), Orderly i d →
      Books earlier d (owes x :: owed) → Orderly i (f d x) ∧ Books earlier (f d x) owed) (xs : List β) :
    ∀ d : Closing g, Orderly i d → Books earlier d (xs.map owes ++ owed) →
      Orderly i (xs.foldl f d) ∧ Books earlier (xs.foldl f d) owed := by
  induction xs with
  | nil => exact fun d ho h => ⟨ho, h⟩
  | cons x xs ih =>
    intro d ho h
    obtain ⟨ho', h'⟩ := hf x d _ ho h
    exact ih _ ho' h'

theorem books_addRest (hi : earlier.size = i) : ∀ (rest : List κ) (it : Item g) (c : Closing g)
    (owed : List (Item g × Item g)), it.rest = rest → Orderly i c → Books earlier c owed →
      Books earlier (addRest i rest it c) owed := by
  intro rest
  induction rest with
  | nil =>
    intro it c owed hrest _ h
    unfold addRest
    split
    · exact h
    · exact h.push_complete (by rw [Item.next?, hrest]; rfl)
  | cons s rest ih =>
    intro it c owed hrest ho h
    have hadv := Item.rest_advance hrest
    have hpush : ¬ c.seen it = true → Orderly i (c.push it) := by
      intro hnew
      have hins := nodup_insert it ho.nodup
      rw [insert, if_neg hnew] at hins
      exact ⟨hins, ho.origin_le⟩
    unfold addRest
    split
    · exact h
    · next hnew =>
      refine (books_foldl (it.advance, ·) _ ?_ _ _ (hpush hnew)
        (h.push hi ho hnew (Item.next?_of_rest hrest))).2
      intro child d owed hd hbooks
      exact ⟨hd.link.addRest _ hadv, ih _ _ _ hadv hd.link hbooks.link⟩

/-! ## Working off one item -/

theorem books_advanceOver (hi : earlier.size = i) {child p : Item g} (ho : Orderly i c)
    (h : Books earlier c ((p.advance, child) :: owed)) :
    Orderly i (advanceOver i child c p) ∧ Books earlier (advanceOver i child c p) owed :=
  ⟨ho.link.addRest _ rfl, books_addRest hi _ _ _ _ rfl ho.link h.link⟩

variable {todo : List (Item g)}

omit [DecidableEq κ] in
theorem Orderly.take (ho : Orderly i c) (htodo : c.todo = it :: todo) (hit : it.origin ≤ i) :
    Orderly i (c.take it todo) := by
  refine ⟨items_take htodo ▸ ho.nodup, fun d hd => ?_⟩
  rcases List.mem_cons.mp hd with rfl | hd
  · exact hit
  · exact ho.origin_le d hd

omit [DecidableEq κ] in
theorem itemsAt_take (htodo : c.todo = it :: todo) (k : Nat) :
    (c.take it todo).itemsAt earlier k = c.itemsAt earlier k := by
  unfold itemsAt
  rw [items_take htodo]

/-- A completed item makes the set owe a link for each item that waits for it. -/
theorem Books.take (hnodup : ∀ (k : Nat) (set : StateSet g), earlier[k]? = some set → set.items.Nodup) (ho : Orderly i c)
    (h : Books earlier c owed) (htodo : c.todo = it :: todo) (hcomplete : it.isComplete = true) :
    Books earlier (c.take it todo) ((parents earlier (c.take it todo) it).map (·.advance, it) ++ owed) := by
  have hnew : it ∉ c.done := by
    intro hdone
    have hdisjoint := (List.nodup_append.mp ho.nodup).2.2
    exact hdisjoint it (List.mem_reverse.mpr hdone) it (by simp [htodo]) rfl
  have hparents : (parents earlier (c.take it todo) it).Nodup := by
    unfold parents
    rw [itemsAt_take htodo]
    refine List.Nodup.filter _ ?_
    unfold itemsAt
    split
    · next set hset => exact hnodup _ set hset
    · exact ho.nodup
  refine h.owe rfl (hparents.map fun p q hpq => Item.advance_injective (Prod.mk.inj hpq).1) ?_ ?_
  · rintro l hl hdue
    obtain ⟨p, _, rfl⟩ := List.mem_map.mp hl
    exact hnew hdue.worked
  · rintro ⟨a, child⟩
    constructor
    · rintro ⟨hdone, hc, p, hp, hpnext, rfl⟩
      rcases List.mem_cons.mp hdone with rfl | hdone
      · exact .inl (List.mem_map.mpr ⟨p, mem_waiting.mpr ⟨hp, hpnext⟩, rfl⟩)
      · rw [itemsAt_take htodo] at hp
        exact .inr ⟨hdone, hc, p, hp, hpnext, rfl⟩
    · rintro (hl | hdue)
      · obtain ⟨p, hp, heq⟩ := List.mem_map.mp hl
        obtain ⟨rfl, rfl⟩ := Prod.mk.inj heq
        obtain ⟨hp, hpnext⟩ := mem_waiting.mp hp
        exact ⟨List.mem_cons_self, hcomplete, p, hp, hpnext, rfl⟩
      · obtain ⟨p, hp, hpnext, hadv⟩ := hdue.parent
        rw [← itemsAt_take htodo] at hp
        exact ⟨List.mem_cons_of_mem _ hdue.worked, hdue.complete, p, hp, hpnext, hadv⟩

omit [DecidableEq κ] in
/-- An item that is not complete makes the set owe nothing. -/
theorem Books.take_incomplete (h : Books earlier c owed) (htodo : c.todo = it :: todo)
    (hcomplete : ¬ it.isComplete = true) : Books earlier (c.take it todo) owed := by
  refine h.keep rfl fun l => ?_
  constructor
  · rintro ⟨hdone, hc, p, hp, hpnext, hadv⟩
    rw [itemsAt_take htodo] at hp
    rcases List.mem_cons.mp hdone with rfl | hdone
    · exact absurd hc hcomplete
    · exact ⟨hdone, hc, p, hp, hpnext, hadv⟩
  · rintro ⟨hdone, hc, p, hp, hpnext, hadv⟩
    rw [← itemsAt_take htodo] at hp
    exact ⟨List.mem_cons_of_mem _ hdone, hc, p, hp, hpnext, hadv⟩

variable {table : Lookaheads κ} {ahead : κ}

theorem books_process (hi : earlier.size = i)
    (hnodup : ∀ (k : Nat) (set : StateSet g), earlier[k]? = some set → set.items.Nodup) (ho : Orderly i c)
    (h : Books earlier c []) (htodo : c.todo = it :: todo) (hit : it.origin ≤ i) :
    Orderly i (process table earlier i ahead it c.done (c.take it todo)) ∧
      Books earlier (process table earlier i ahead it c.done (c.take it todo)) [] := by
  have hotake := ho.take htodo hit
  cases hnext : it.next? with
  | none =>
    have hcomplete := Item.next?_eq_none_iff.mp hnext
    rw [process_complete hnext]
    exact books_foldl (·.advance, it) _ (fun p d _ hd hb => books_advanceOver hi hd hb) _ _ hotake
      (h.take hnodup ho htodo hcomplete)
  | some s =>
    have hcomplete : ¬ it.isComplete = true := by
      intro hc
      rw [Item.next?_eq_none_iff.mpr hc] at hnext
      cases hnext
    have htake := h.take_incomplete htodo hcomplete
    unfold process
    rw [hnext]
    dsimp only
    split
    · -- what is predicted waits for nothing yet, or for something that was completed here
      refine List.foldlRecOn (motive := fun d => Orderly i d ∧ Books earlier d []) _ _ ⟨hotake, htake⟩ ?_
      rintro d ⟨hd, hb⟩ r _
      exact ⟨hd.addRest _ rfl, books_addRest hi _ _ _ _ rfl hd hb⟩
    · exact ⟨hotake, htake⟩

/-! ## The loop -/

variable {ts : List (Token κ)} {kernel : List (Item g)}

theorem books_close (hi : earlier.size = i)
    (hearlier : ∀ k set, earlier[k]? = some set → ∀ it ∈ set.items, Item.Sits ts k it)
    (hnodup : ∀ (k : Nat) (set : StateSet g), earlier[k]? = some set → set.items.Nodup) :
    ∀ (fuel : Nat) (c : Closing g), Running ts table earlier i ahead kernel c → Books earlier c [] →
      Books earlier (close table earlier i ahead fuel c) [] := by
  intro fuel
  induction fuel with
  | zero => exact fun c _ h => h
  | succ fuel ih =>
    intro c hr h
    have horigin : ∀ it ∈ c.items, it.origin ≤ i := fun it hit => (hr.sound.sits it hit).spans.le
    have ho : Orderly i c := ⟨hr.sound.nodup, fun it hit => horigin it (mem_items_of_mem_done hit)⟩
    unfold close
    split
    · exact h
    · next it todo htodo =>
      have hit : it ∈ c.items := by simp [items, htodo]
      exact ih _ (running_process hi hearlier htodo hr)
        (books_process hi hnodup ho h htodo (horigin it hit)).2

end Closing

namespace Chart

variable [DecidableEq κ] [Alphabet κ] {ts : List (Token κ)} {table : Lookaheads κ}
  {sets : Array (StateSet g)} {kernel : List (Item g)}

/-- No link stands twice in a chart, and every completed item is linked to all that waited for it. -/
structure FullyLinked (sets : Array (StateSet g)) : Prop where
  nodup : ∀ (k : Nat) (set : StateSet g), sets[k]? = some set → set.links.Nodup
  complete : ∀ k child p, At sets k child → child.isComplete = true → At sets child.origin p →
    p.next? = some child.lhs → LinkAt sets k p.advance child

omit [DecidableEq κ] [Alphabet κ] in
theorem fullyLinked_empty : FullyLinked (g := g) #[] := by
  refine ⟨fun k set h => by simp at h, fun k child p h => ?_⟩
  have := h.lt
  simp at this

theorem books_stateSet (ahead : κ) (hl : Lawful ts table sets) (hk : Kernel ts sets kernel) :
    ∃ c : Closing g, stateSet table sets sets.size ahead kernel = ⟨c.items, c.links.reverse⟩ ∧
      Closing.Running ts table sets sets.size ahead kernel c ∧ c.todo = [] ∧ Closing.Books sets c [] := by
  have hearlier : ∀ k set, sets[k]? = some set → ∀ it ∈ set.items, Item.Sits ts k it :=
    fun k set hset it hit => hl.sits k it ⟨set, hset, hit⟩
  have hstart : Closing.Running ts table sets sets.size ahead kernel ⟨[], kernel, []⟩ := running_kernel hk
  obtain ⟨hr, ht⟩ := Closing.running_close rfl hearlier (itemBound g sets.size) ⟨[], kernel, []⟩ hstart
    (by simp)
  refine ⟨_, rfl, hr, ht, Closing.books_close rfl hearlier hl.nodup _ _ hstart ?_⟩
  refine ⟨by simp, fun l => ⟨fun h => by simp at h, fun h => ?_⟩⟩
  have := h.worked
  simp at this

/-- One more set keeps the links exact: an old completed item began in an old set, and for the new ones
nothing is owed any more. -/
theorem FullyLinked.push (h : FullyLinked sets) (hl : Lawful ts table sets) (hk : Kernel ts sets kernel) (ahead : κ) :
    FullyLinked (sets.push (stateSet table sets sets.size ahead kernel)) := by
  obtain ⟨c, hset, hr, htodo, hbooks⟩ := books_stateSet ahead hl hk
  rw [hset]
  constructor
  · intro k set hget
    rw [Array.getElem?_push] at hget
    split at hget
    · cases hget
      exact List.nodup_reverse.mpr hbooks.nodup
    · exact h.nodup k set hget
  · intro k child p hat hcomplete hp hnext
    rcases at_push.mp hat with hat | ⟨rfl, hit⟩
    · have hlt := hat.lt
      have hle := (hl.sits k child hat).spans.le
      rcases at_push.mp hp with hp | ⟨e, _⟩
      · exact linkAt_push.mpr (.inl (h.complete k child p hat hcomplete hp hnext))
      · omega
    · have hdone : child ∈ c.done := by simpa [Closing.items, htodo] using hit
      have hparent : p ∈ c.itemsAt sets child.origin := by
        unfold Closing.itemsAt
        rcases at_push.mp hp with ⟨set, hget, hmem⟩ | ⟨ho, hmem⟩
        · rw [hget]
          exact hmem
        · rw [Array.getElem?_eq_none (by omega)]
          exact hmem
      have hmem := (hbooks.mem (p.advance, child)).mpr ⟨hdone, hcomplete, p, hparent, hnext, rfl⟩
      exact linkAt_push.mpr (.inr ⟨rfl, by simpa using hmem⟩)

/-- Reading tokens keeps the laws and the links. -/
theorem Run.keeps {last : Option (Token κ)} {rest : List (Token κ)} {answer : Except Failure (Chart g)}
    (h : Run ts table sets kernel last rest answer) : FullyLinked sets → ∀ chart, answer = .ok chart →
      Lawful ts table chart.sets ∧ FullyLinked chart.sets := by
  induction h with
  | accepted hstage _ =>
    intro hlinked chart hchart
    cases hchart
    exact ⟨hstage.push, hlinked.push hstage.lawful hstage.kernel _⟩
  | ended | refused =>
    intro _ chart hchart
    cases hchart
  | next hstage _ _ ih => exact fun hlinked => ih (hlinked.push hstage.lawful hstage.kernel _)

/-- A chart that was built obeys the laws, and its links are complete. -/
theorem recognise_keeps {steps : List (ChartStep κ)} {chart : Chart g}
    (h : recognise g table ts = (steps, .ok chart)) : Lawful ts table chart.sets ∧ FullyLinked chart.sets :=
  (run_recognise table ts).keeps fullyLinked_empty chart (congrArg (·.2) h)

/-! ## The links of an item -/

variable {chart : Chart g} {it child : Item g} {i : Nat}

omit [Alphabet κ] in
theorem nodup_linksOf (h : FullyLinked chart.sets) (it : Item g) (i : Nat) : (chart.linksOf it i).Nodup := by
  unfold linksOf
  cases hset : chart.sets[i]? with
  | none => exact List.nodup_nil
  | some set =>
    refine List.Nodup.map_on ?_ ((h.nodup i set hset).filter _)
    rintro ⟨a, b⟩ hab ⟨a', b'⟩ hab' rfl
    simp only [List.mem_filter, decide_eq_true_eq] at hab hab'
    rw [hab.2, hab'.2]

/-- The links of an advanced item lead to the completed items of the symbol before its dot which began
where the item waited for that symbol. -/
theorem mem_linksOf_iff (hl : Lawful ts table chart.sets) (h : FullyLinked chart.sets) (hdot : 0 < it.dot) {s : κ}
    (hs : (g.rule it.rule).rhs[it.dot - 1]? = some s) :
    child ∈ chart.linksOf it i ↔ At chart.sets i child ∧ child.isComplete = true ∧ child.lhs = s ∧
      At chart.sets child.origin { it with dot := it.dot - 1 } := by
  have hadvance : Item.advance { it with dot := it.dot - 1 } = it := by
    simp only [Item.advance, Nat.sub_add_cancel hdot]
  rw [mem_linksOf]
  constructor
  · intro hlink
    obtain ⟨hat, hcomplete, p, hp, hnext, hadv⟩ := hl.linked i it child hlink
    rw [Item.eq_back_of_advance hadv] at hp hnext
    rw [Item.next?_eq] at hnext
    exact ⟨hat, hcomplete, Option.some.inj (hnext.symm.trans hs), hp⟩
  · rintro ⟨hat, hcomplete, rfl, hp⟩
    have hlink := h.complete i child _ hat hcomplete hp (by rw [Item.next?_eq]; exact hs)
    rwa [hadvance] at hlink

/-- The resolver is asked once if more than one link can be followed, and about all of those. -/
theorem run_choose (resolver : Resolver κ) (active : List (Item g × Nat)) (state : Nat) (links : List (Item g))
    (choices : List (Choice κ)) {offered : List (Item g)}
    (hoffered : offered = links.filter fun it => !active.contains (it, state)) :
    ((choose resolver active state links).run choices).2 =
      if 1 < offered.length then
        ⟨offered.map (candidate state), resolver (offered.map (candidate state))⟩ :: choices
      else choices := by
  unfold choose
  dsimp only
  rw [← hoffered]
  split
  · subst hoffered
    rfl
  · rfl
  · rfl
  · next hnone hone =>
    have hlen : 1 < offered.length := by
      match offered, hnone, hone with
      | [], hnone, _ => exact absurd rfl hnone
      | [it], _, hone => exact absurd rfl (hone it)
      | _ :: _ :: _, _, _ => simp
    rw [if_pos hlen, run_bind]
    cases resolver (offered.map (candidate state)) with
    | error cause => rfl
    | ok n =>
      dsimp only
      cases (if n < 0 then none else offered[n.toNat]?) <;> rfl

/-- The links of an item whose dot stands behind a symbol are, each once, the completed items of that
symbol which began where the item waited for it. A resolver that has to choose one is shown all of them
which are not being derived already, each once, and is asked only if there is a choice. -/
theorem linksOf_recognise {steps : List (ChartStep κ)} (h : recognise g table ts = (steps, .ok chart))
    (hdot : 0 < it.dot) {s : κ} (hs : (g.rule it.rule).rhs[it.dot - 1]? = some s) :
    (chart.linksOf it i).Nodup ∧
    (∀ child, child ∈ chart.linksOf it i ↔ At chart.sets i child ∧ child.isComplete = true ∧
      child.lhs = s ∧ At chart.sets child.origin { it with dot := it.dot - 1 }) ∧
    ∀ (resolver : Resolver κ) (active : List (Item g × Nat)) (choices : List (Choice κ)),
      ∃ offered : List (Item g), offered.Nodup ∧
        (∀ child, child ∈ offered ↔ child ∈ chart.linksOf it i ∧ (child, i) ∉ active) ∧
        ((choose resolver active i (chart.linksOf it i)).run choices).2 =
          if 1 < offered.length then
            ⟨offered.map (candidate i), resolver (offered.map (candidate i))⟩ :: choices
          else choices := by
  obtain ⟨hl, hlinked⟩ := recognise_keeps h
  have hnodup := nodup_linksOf hlinked it i
  refine ⟨hnodup, fun child => mem_linksOf_iff hl hlinked hdot hs, ?_⟩
  intro resolver active choices
  refine ⟨_, hnodup.filter _, fun child => ?_, run_choose resolver active i _ choices rfl⟩
  simp

/-- A symbol that may vanish is completed twice behind one token: it vanishes there, after it has taken the
token, or it takes the token, after it has vanished. Both completions are linked. -/
theorem linksOf_recognise_vanishing :
    let g : Grammar String :=
      .ofRules "S" [⟨"S", ["A", "A"], "s", true⟩, ⟨"A", [], "s", true⟩, ⟨"A", ["a"], "s", true⟩]
    ∃ steps chart, recognise g g.lookaheads [⟨"a", [], none, 1⟩, ⟨"EOF", [], none, 1⟩] = (steps, .ok chart) ∧
      (chart.linksOf ⟨⟨1, by decide⟩, 2, 0⟩ 1).Nodup ∧
      (At chart.sets 1 ⟨⟨3, by decide⟩, 1, 0⟩ ∧ At chart.sets 0 ⟨⟨1, by decide⟩, 1, 0⟩) ∧
      At chart.sets 1 ⟨⟨2, by decide⟩, 0, 1⟩ ∧ At chart.sets 1 ⟨⟨1, by decide⟩, 1, 0⟩ := by
  intro g
  have hlinks : (recognise g g.lookaheads [⟨"a", [], none, 1⟩, ⟨"EOF", [], none, 1⟩]).2.toOption.map
      (·.linksOf ⟨⟨1, by decide⟩, 2, 0⟩ 1) =
        some [⟨⟨3, by decide⟩, 1, 0⟩, ⟨⟨2, by decide⟩, 0, 1⟩] := by cbv
  cases hrec : recognise g g.lookaheads [⟨"a", [], none, 1⟩, ⟨"EOF", [], none, 1⟩] with
  | mk steps outcome =>
    rw [hrec] at hlinks
    cases outcome with
    | error f => cases hlinks
    | ok chart =>
      have hlinks : chart.linksOf ⟨⟨1, by decide⟩, 2, 0⟩ 1 = _ := Option.some.inj hlinks
      have hdot : 0 < (⟨⟨1, by decide⟩, 2, 0⟩ : Item g).dot := by decide
      obtain ⟨hnodup, hmem, -⟩ := linksOf_recognise (i := 1) (s := "A") hrec hdot (by decide)
      obtain ⟨hat, -, -, hback⟩ := (hmem ⟨⟨3, by decide⟩, 1, 0⟩).mp (by rw [hlinks]; decide)
      obtain ⟨hat', -, -, hback'⟩ := (hmem ⟨⟨2, by decide⟩, 0, 1⟩).mp (by rw [hlinks]; decide)
      exact ⟨steps, chart, rfl, hnodup, ⟨hat, hback⟩, hat', hback'⟩

end Chart

end IrafCl
