import IrafCl.Cache.Memory
import IrafCl.Proofs.Cache.RoundTrip
import Mathlib.Data.List.Dedup

/-!
# A memory recalls its recent history

What a memory answers is fixed by the requests since it last overflowed: those it keeps in mind (`History.next`, `recent`).
It overflows when an entry is put under a new key while it holds as many as it may. Of what it keeps in mind the last entry
under a key and the last digest of a revision count, and an entry that cannot be read back counts as not there (`answer`). The
memory and the history say the same after every request (`Recalls.serve`), so also after any number of them (`serve_after`).
-/

namespace IrafCl

/-! ## Requests -/

/-- What a memory is asked. -/
inductive Request where
  | put (key : Bytes) (e : Entry)
  | get (key : Bytes)
  | lookup (revision : Revision)
  | remember (revision : Revision) (digest : Bytes)
  | length

/-- What a memory answers. -/
inductive Answer where
  | done
  | entry (e : Option Entry)
  | digest (d : Option Bytes)
  | length (n : Nat)

namespace Memory

/-- Answers a request. -/
def serve (m : Memory) : Request → Memory × Answer
  | .put key e => (m.put key e, .done)
  | .get key => (m, .entry (m.get? key))
  | .lookup revision => (m, .digest (m.digestOf? revision))
  | .remember revision digest => (m.remember revision digest, .done)
  | .length => (m, .length m.length)

/-- The memory after some requests. -/
def after (m : Memory) (requests : List Request) : Memory := requests.foldl (fun m request => (m.serve request).1) m

end Memory

/-! ## Histories -/

/-- Requests, the latest first. -/
abbrev History := List Request

namespace History

/-- The keys that entries were put under. -/
def keys (past : History) : List Bytes := past.filterMap fun
  | .put key _ => some key
  | _ => none

/-- How many entries were put, those under one key counted once. -/
def held (past : History) : Nat := past.keys.dedup.length

/-- The entry last put under a key. -/
def entry? (past : History) (key : Bytes) : Option Entry := past.findSome? fun
  | .put k e => if k = key then some e else none
  | _ => none

/-- The digest last remembered for a revision. -/
def digest? (past : History) (revision : Revision) : Option Bytes := past.findSome? fun
  | .remember r d => if r = revision then some d else none
  | _ => none

/-- Whether a request is one too many for a memory that keeps this history in mind. -/
def overflows (capacity : Nat) (past : History) : Request → Bool
  | .put key _ => (past.entry? key).isNone && capacity ≤ past.held
  | _ => false

/-- What is kept in mind after a request. -/
def next (capacity : Nat) (past : History) (request : Request) : History :=
  if past.overflows capacity request then [request] else request :: past

/-- The requests since the last that was one too many, with that one. -/
def recent (capacity : Nat) (requests : List Request) : History := requests.foldl (next capacity) []

/-- The answer that a history gives. -/
def answer (past : History) : Request → Answer
  | .put _ _ => .done
  | .get key => .entry (((past.entry? key).filter fun e => e.isShort && e.isUtf8).map Entry.normal)
  | .lookup revision => .digest (past.digest? revision)
  | .remember _ _ => .done
  | .length => .length past.held

section
variable {past : History} {key other : Bytes} {e : Entry} {revision : Revision} {digest : Bytes} {request : Request}

theorem keys_put : keys (.put key e :: past) = key :: past.keys := rfl

theorem entry?_put : entry? (.put key e :: past) other = if key = other then some e else past.entry? other := by
  unfold entry?
  rw [List.findSome?_cons]
  split <;> simp_all

theorem mem_of_entry? (h : past.entry? key = some e) : .put key e ∈ past := by
  obtain ⟨request, hmem, h⟩ := List.exists_of_findSome?_eq_some h
  cases request with
  | put k e' =>
    dsimp only at h
    split at h
    · next hk =>
      cases h
      exact hk ▸ hmem
    · cases h
  | _ => cases h

theorem entry?_eq_none_iff : past.entry? key = none ↔ key ∉ past.keys := by
  unfold entry? keys
  rw [List.findSome?_eq_none_iff, List.mem_filterMap]
  constructor
  · rintro h ⟨request, hmem, hkey⟩
    cases request with
    | put k e =>
      cases hkey
      simpa using h _ hmem
    | _ => cases hkey
  · intro h request hmem
    cases request with
    | put k e =>
      dsimp only
      rw [if_neg]
      rintro rfl
      exact h ⟨_, hmem, rfl⟩
    | _ => rfl

theorem digest?_remember {r : Revision} :
    digest? (.remember revision digest :: past) r = if revision = r then some digest else past.digest? r := by
  unfold digest?
  rw [List.findSome?_cons]
  split <;> simp_all

theorem mem_of_mem_next {capacity : Nat} {r : Request} (h : r ∈ past.next capacity request) : r = request ∨ r ∈ past := by
  unfold next at h
  split at h
  · exact .inl (List.mem_singleton.mp h)
  · exact List.mem_cons.mp h

theorem mem_of_mem_recent {capacity : Nat} {requests : List Request} {r : Request} (h : r ∈ recent capacity requests) :
    r ∈ requests := by
  have hfoldl : ∀ (requests : List Request) (past : History), r ∈ requests.foldl (next capacity) past →
      r ∈ past ∨ r ∈ requests := by
    intro requests
    induction requests with
    | nil => exact fun past h => .inl h
    | cons request requests ih =>
      intro past h
      rcases ih _ h with h | h
      · rcases mem_of_mem_next h with rfl | h
        · exact .inr List.mem_cons_self
        · exact .inl h
      · exact .inr (List.mem_cons_of_mem _ h)
  rcases hfoldl requests [] h with h | h
  · cases h
  · exact h

end

end History

/-! ## Association lists -/

namespace Memory

theorem lookup_assign {α β : Type} [BEq α] [LawfulBEq α] [DecidableEq α] (xs : List (α × β)) (key : α) (value : β) (other : α) :
    (assign xs key value).lookup other = if key = other then some value else xs.lookup other := by
  unfold assign
  by_cases hkey : key = other
  · subst hkey
    simp
  · rw [if_neg hkey, List.lookup_cons, beq_false_of_ne (Ne.symm hkey)]
    dsimp only
    induction xs with
    | nil => rfl
    | cons x xs ih =>
      obtain ⟨k, v⟩ := x
      rw [List.filter_cons]
      split
      · rw [List.lookup_cons, List.lookup_cons, ih]
      · next hk =>
        have hk : k = key := by simpa using hk
        rw [ih, List.lookup_cons, hk, beq_false_of_ne (Ne.symm hkey)]

theorem mem_keys_assign {α β : Type} [DecidableEq α] {xs : List (α × β)} {key other : α} {value : β} :
    other ∈ (assign xs key value).map Prod.fst ↔ other = key ∨ other ∈ xs.map Prod.fst := by
  by_cases h : other = key
  · simp [assign, h]
  · simp [assign, h]

theorem nodup_keys_assign {α β : Type} [DecidableEq α] {xs : List (α × β)} (h : (xs.map Prod.fst).Nodup) (key : α)
    (value : β) : ((assign xs key value).map Prod.fst).Nodup := by
  unfold assign
  rw [List.map_cons, List.nodup_cons]
  refine ⟨by simp, h.sublist (List.filter_sublist.map _)⟩

/-- An association list with distinct keys is as long as there are keys. -/
theorem length_eq_dedup {α β : Type} [DecidableEq α] {xs : List (α × β)} {keys : List α} (hnodup : (xs.map Prod.fst).Nodup)
    (hkeys : ∀ key, key ∈ xs.map Prod.fst ↔ key ∈ keys) : xs.length = keys.dedup.length := by
  have hperm : (xs.map Prod.fst).Perm keys.dedup :=
    (List.perm_ext_iff_of_nodup hnodup keys.nodup_dedup).mpr fun key => by rw [hkeys, List.mem_dedup]
  rw [← List.length_map (f := Prod.fst), hperm.length_eq]

/-! ## A memory and what it keeps in mind -/

/-- A memory of some capacity knows what a history says, and no more than it may. -/
structure Recalls (capacity : Nat) (m : Memory) (past : History) : Prop where
  entries : ∀ key, m.entries.lookup key = (past.entry? key).map Entry.encode
  digests : ∀ revision, m.digests.lookup revision = past.digest? revision
  keys : ∀ key, key ∈ m.entries.map Prod.fst ↔ key ∈ past.keys
  nodup : (m.entries.map Prod.fst).Nodup
  held_le : past.held ≤ capacity
  pos : 0 < capacity
  capacity_eq : m.capacity = capacity

theorem recalls_ofSize (size : Int) : Recalls (if size ≤ 0 then 256 else size.toNat) (ofSize size) [] where
  entries _ := rfl
  digests _ := rfl
  keys _ := Iff.rfl
  nodup := .nil
  held_le := Nat.zero_le _
  pos := by split <;> omega
  capacity_eq := rfl

namespace Recalls

variable {capacity : Nat} {m : Memory} {past : History}

theorem length_eq (h : Recalls capacity m past) : m.length = past.held := length_eq_dedup h.nodup h.keys

theorem isNone_lookup (h : Recalls capacity m past) (key : Bytes) :
    (m.entries.lookup key).isNone = (past.entry? key).isNone := by
  rw [h.entries, Option.isNone_map]

theorem put_eq (h : Recalls capacity m past) (key : Bytes) (e : Entry) : m.put key e =
    if past.overflows capacity (.put key e) then ⟨capacity, [(key, e.encode)], []⟩
    else ⟨capacity, assign m.entries key e.encode, m.digests⟩ := by
  rw [Memory.put, h.isNone_lookup, History.overflows, ← h.length_eq, length, h.capacity_eq]

/-- A put that overflows leaves its own entry alone; any other adds or replaces one. -/
theorem put (h : Recalls capacity m past) (key : Bytes) (e : Entry) :
    Recalls capacity (m.put key e) (past.next capacity (.put key e)) := by
  rw [h.put_eq, History.next]
  split
  · exact {
      entries := fun other => by
        show (assign [] key e.encode).lookup other = _
        rw [History.entry?_put, lookup_assign]
        split <;> rfl
      digests := fun _ => rfl
      keys := fun other => by simp [History.keys]
      nodup := by simp
      held_le := h.pos
      pos := h.pos
      capacity_eq := rfl }
  · next hfits =>
    exact {
      entries := fun other => by
        rw [History.entry?_put, lookup_assign, h.entries]
        split <;> rfl
      digests := h.digests
      keys := fun other => by rw [mem_keys_assign, h.keys, History.keys_put, List.mem_cons]
      nodup := nodup_keys_assign h.nodup key e.encode
      held_le := by
        simp only [History.overflows, Bool.and_eq_true, Option.isNone_iff_eq_none, History.entry?_eq_none_iff,
          decide_eq_true_eq, not_and, Nat.not_le] at hfits
        rw [History.held, History.keys_put]
        by_cases hkey : key ∈ past.keys
        · rw [List.dedup_cons_of_mem hkey]
          exact h.held_le
        · rw [List.dedup_cons_of_notMem hkey]
          exact hfits hkey
      pos := h.pos
      capacity_eq := rfl }

theorem remember (h : Recalls capacity m past) (revision : Revision) (digest : Bytes) :
    Recalls capacity (m.remember revision digest) (.remember revision digest :: past) :=
  { h with digests := fun r => by rw [History.digest?_remember, Memory.remember, lookup_assign, h.digests] }

/-- A request that neither stores nor remembers changes nothing. -/
theorem ask (h : Recalls capacity m past) {request : Request}
    (hentries : ∀ key, History.entry? (request :: past) key = past.entry? key)
    (hdigests : ∀ revision, History.digest? (request :: past) revision = past.digest? revision)
    (hkeys : History.keys (request :: past) = past.keys) : Recalls capacity m (request :: past) where
  entries key := by rw [h.entries, hentries]
  digests revision := by rw [h.digests, hdigests]
  keys key := by rw [h.keys, hkeys]
  nodup := h.nodup
  held_le := by
    rw [History.held, hkeys]
    exact h.held_le
  pos := h.pos
  capacity_eq := h.capacity_eq

/-- One request: a memory goes on knowing what the history says. -/
theorem serve (h : Recalls capacity m past) (request : Request) :
    Recalls capacity (m.serve request).1 (past.next capacity request) := by
  cases request with
  | put key e => exact h.put key e
  | get key => exact h.ask (fun _ => rfl) (fun _ => rfl) rfl
  | lookup revision => exact h.ask (fun _ => rfl) (fun _ => rfl) rfl
  | remember revision digest => exact h.remember revision digest
  | length => exact h.ask (fun _ => rfl) (fun _ => rfl) rfl

/-- Any number of requests. -/
theorem after (h : Recalls capacity m past) (requests : List Request) :
    Recalls capacity (m.after requests) (requests.foldl (History.next capacity) past) := by
  induction requests generalizing m past with
  | nil => exact h
  | cons request requests ih => exact ih (h.serve request)

/-- The entry under a key is read back, if it can be. -/
theorem get?_eq (h : Recalls capacity m past) (hsize : ∀ key e, .put key e ∈ past → e.encode.length < Nat.pow 2 64)
    (key : Bytes) : m.get? key = ((past.entry? key).filter fun e => e.isShort && e.isUtf8).map Entry.normal := by
  rw [get?, h.entries]
  cases hentry : past.entry? key with
  | none => rfl
  | some e =>
    have hlen := hsize key e (History.mem_of_entry? hentry)
    show (Entry.decode e.encode).toOption = _
    rw [Entry.toOption_decode_encode hlen, Entry.isReadable, Entry.fits_toCbor]
    cases hread : e.isShort && e.isUtf8 <;> simp [Option.filter, hread]

/-- The history gives the answers of the memory. -/
theorem answer_eq (h : Recalls capacity m past) (hsize : ∀ key e, .put key e ∈ past → e.encode.length < Nat.pow 2 64)
    (request : Request) : (m.serve request).2 = past.answer request := by
  cases request with
  | put key e => rfl
  | get key => exact congrArg Answer.entry (h.get?_eq hsize key)
  | lookup revision => exact congrArg Answer.digest (h.digests revision)
  | remember revision digest => rfl
  | length => exact congrArg Answer.length h.length_eq

/-- Where an entry replaces another, all else is left as it was. -/
theorem put_of_mem (h : Recalls capacity m past) {key : Bytes} (hkey : key ∈ past.keys) (e : Entry) :
    (m.put key e).length = m.length ∧ (∀ other, other ≠ key → (m.put key e).get? other = m.get? other) ∧
      ∀ revision, (m.put key e).digestOf? revision = m.digestOf? revision := by
  have hput : m.put key e = ⟨capacity, assign m.entries key e.encode, m.digests⟩ := by
    rw [h.put_eq, if_neg]
    simp [History.overflows, History.entry?_eq_none_iff, hkey]
  rw [hput]
  refine ⟨?_, fun other hother => ?_, fun revision => rfl⟩
  · have hkeys : ∀ other, other ∈ (assign m.entries key e.encode).map Prod.fst ↔ other ∈ past.keys := by
      intro other
      rw [mem_keys_assign, h.keys, or_iff_right_of_imp]
      rintro rfl
      exact hkey
    rw [h.length_eq, History.held, ← length_eq_dedup (nodup_keys_assign h.nodup key e.encode) hkeys]
    rfl
  · rw [get?, get?, lookup_assign, if_neg (Ne.symm hother)]

end Recalls

/-- After any requests to a new memory, every request is answered as the history since the last overflow says. No more entries
are held than the size allows, and an entry that replaces another leaves all else as it was. -/
theorem serve_after (size : Int) (requests : List Request)
    (hsize : ∀ key e, .put key e ∈ requests → e.encode.length < Nat.pow 2 64) :
    let capacity := if size ≤ 0 then 256 else size.toNat
    let m := (ofSize size).after requests
    let past := History.recent capacity requests
    (∀ request, (m.serve request).2 = past.answer request) ∧ m.length ≤ capacity ∧
      ∀ key e, key ∈ past.keys → (m.put key e).length = m.length ∧
        (∀ other, other ≠ key → (m.put key e).get? other = m.get? other) ∧
        ∀ revision, (m.put key e).digestOf? revision = m.digestOf? revision := by
  intro capacity m past
  have h : Recalls capacity m past := (recalls_ofSize size).after requests
  have hpast : ∀ key e, .put key e ∈ past → e.encode.length < Nat.pow 2 64 := fun key e hput =>
    hsize key e (History.mem_of_mem_recent hput)
  exact ⟨h.answer_eq hpast, h.length_eq ▸ h.held_le, fun key e hkey => h.put_of_mem hkey e⟩

/-- The third key makes a memory of two entries forget; what comes after it is kept, also an entry that is put a second time,
but none with a text that is not UTF-8. -/
theorem serve_after_overflow :
    let entry (code : Bytes) : Entry := ⟨code, "a.cl", "a", true, [], [], []⟩
    let file : Revision := ⟨"a.cl", 1, 0⟩
    let requests : List Request := [.put "a" (entry "1"), .remember file "d", .put "b" (entry "2"), .put "a" (entry "3"),
      .put "c" (entry "4"), .get "c", .put "b" (entry [0xFF]), .put "c" (entry "5")]
    let m := (ofSize 2).after requests
    (∀ key e, .put key e ∈ requests → e.encode.length < Nat.pow 2 64) ∧
      (m.serve (.get "a")).2 = .entry none ∧ (m.serve (.lookup file)).2 = .digest none ∧
      (m.serve (.get "b")).2 = .entry none ∧ (m.serve (.get "c")).2 = .entry (some (entry "5")) ∧
      (m.serve .length).2 = .length 2 := by
  intro entry file requests
  have hsize : ∀ key e, .put key e ∈ requests → e.encode.length < Nat.pow 2 64 := by
    have hcode : ∀ code ∈ (["1", "2", "3", "4", [0xFF], "5"] : List Bytes), (entry code).encode.length < Nat.pow 2 64 := by
      decide +kernel
    intro key e hput
    simp only [requests, List.mem_cons, Request.put.injEq, reduceCtorEq, false_or, List.not_mem_nil, or_false] at hput
    rcases hput with ⟨-, rfl⟩ | ⟨-, rfl⟩ | ⟨-, rfl⟩ | ⟨-, rfl⟩ | ⟨-, rfl⟩ | ⟨-, rfl⟩ <;> exact hcode _ (by simp)
  have hpast : History.recent 2 requests = [.put "c" (entry "5"), .put "b" (entry [0xFF]), .get "c", .put "c" (entry "4")] := by
    have ha : ("a" : Bytes) = [97] := by decide +kernel
    have hb : ("b" : Bytes) = [98] := by decide +kernel
    have hc : ("c" : Bytes) = [99] := by decide +kernel
    simp [requests, History.recent, History.next, History.overflows, History.entry?, History.held, History.keys, ha, hb, hc]
  obtain ⟨h, -, -⟩ := serve_after 2 requests hsize
  change ∀ request, _ = (History.recent 2 requests).answer request at h
  rw [hpast] at h
  generalize (ofSize 2).after requests = m at h ⊢
  exact ⟨hsize, h _, h _, h _, h _, h _⟩

end Memory

end IrafCl
