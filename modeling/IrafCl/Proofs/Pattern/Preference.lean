import IrafCl.Proofs.Pattern.Stops

/-!
# Which match is preferred

The first byte of a lexeme leaves only the patterns that can start with it (`Scanner.lexeme?_filter`). Of the matches of an
expression the first counts, and `Regex.Takes` says that it takes a given text. Where the next byte always tells how to go
on (`Regex.deterministic`), that is the text of the expression behind which it cannot go on (`Regex.Matches.takes`).
-/

namespace IrafCl

namespace Regex

/-! ## Bytes of a match -/

/-- Whether a match can begin with the byte. -/
def starts (b : UInt8) : Regex → Bool
  | .empty | .wordBoundary _ | .textStart | .textEnd => false
  | .one cls => cls.contains b.toNat || 128 ≤ b && !cls.isAscii
  | .seq r s => r.starts b || !r.advances && s.starts b
  | .alt r s => r.starts b || s.starts b
  | .star r _ | .plus r _ | .optional r _ => r.starts b

theorem Matches.starts {r : Regex} {s : Bytes} (h : Matches r s) : ∀ b ∈ s.head?, r.starts b = true := by
  have happend {s t : Bytes} {p : UInt8 → Prop} (hs : ∀ b ∈ s.head?, p b) (ht : s = [] → ∀ b ∈ t.head?, p b) :
      ∀ b ∈ (s ++ t).head?, p b := by
    cases s with
    | nil => exact ht rfl
    | cons c s => exact hs
  induction h with
  | @one cls b bs h =>
    rintro _ ⟨⟩
    by_cases hb : b < 128
    · rw [CharClass.contains_first bs hb] at h
      simp [Regex.starts, h]
    · have hcls : cls.isAscii = false := by
        by_contra hcls
        exact hb (Scalar.first_of_code_lt (lt_of_contains (Bool.not_eq_false _ ▸ hcls) h)).1
      have hb : 128 ≤ b := UInt8.not_lt.mp hb
      simp [Regex.starts, hb, hcls]
  | seq ha hb iha ihb =>
    refine happend (fun b hmem => by simp [Regex.starts, iha b hmem]) fun hnil b hmem => ?_
    subst hnil
    have hadvances := mt ha.ne_nil (fun h => h rfl)
    simp [Regex.starts, hadvances, ihb b hmem]
  | altLeft ha ih => exact fun b hmem => by simp [Regex.starts, ih b hmem]
  | altRight hb ih => exact fun b hmem => by simp [Regex.starts, ih b hmem]
  | starCons ha hmore iha ihmore => exact happend iha fun _ => ihmore
  | plus ha hmore iha ihmore => exact happend iha fun _ => ihmore
  | optional ha ih => exact ih
  | _ => exact fun b hmem => nomatch hmem

/-- The classes that a match can begin with. -/
def firsts : Regex → List CharClass
  | .empty | .wordBoundary _ | .textStart | .textEnd => []
  | .one cls => [cls]
  | .seq r s => r.firsts ++ if r.advances then [] else s.firsts
  | .alt r s => r.firsts ++ s.firsts
  | .star r _ | .plus r _ | .optional r _ => r.firsts

/-- A byte of one of the classes; of a class that is not of ASCII this tells nothing. -/
def Among (b : UInt8) (classes : List CharClass) : Prop :=
  ∃ cls ∈ classes, cls.contains b.toNat = true ∨ cls.isAscii = false

theorem Among.append_left {b : UInt8} {classes : List CharClass} (h : Among b classes) (more : List CharClass) :
    Among b (classes ++ more) := h.imp fun _ => And.imp_left (List.mem_append_left more)

theorem Among.append_right {b : UInt8} {classes : List CharClass} (h : Among b classes) (more : List CharClass) :
    Among b (more ++ classes) := h.imp fun _ => And.imp_left (List.mem_append_right more)

theorem among_firsts {r : Regex} {b : UInt8} (h : r.starts b = true) : Among b r.firsts := by
  induction r with
  | one cls =>
    simp only [Regex.starts, Bool.or_eq_true, Bool.and_eq_true, Bool.not_eq_true'] at h
    exact ⟨cls, List.mem_singleton_self cls, h.imp_right And.right⟩
  | seq r s ihr ihs =>
    simp only [Regex.starts, Bool.or_eq_true, Bool.and_eq_true, Bool.not_eq_true'] at h
    rcases h with h | ⟨hadvances, h⟩
    · exact (ihr h).append_left _
    · rw [firsts, hadvances]
      exact (ihs h).append_right _
  | alt r s ihr ihs =>
    rcases Bool.or_eq_true_iff.mp h with h | h
    · exact (ihr h).append_left _
    · exact (ihs h).append_right _
  | star r _ ih | plus r _ ih | optional r _ ih => exact ih h
  | _ => cases h

/-- Whether every match consists of bytes of ASCII with the property. -/
def within (p : UInt8 → Bool) : Regex → Bool
  | .one cls => cls.isAscii && cls.ranges.all fun (lo, hi) => (List.range' lo (hi + 1 - lo)).all fun n => p (UInt8.ofNat n)
  | .seq r s | .alt r s => r.within p && s.within p
  | .star r _ | .plus r _ | .optional r _ => r.within p
  | .empty | .wordBoundary _ | .textStart | .textEnd => true

theorem Matches.forall_mem {p : UInt8 → Bool} {r : Regex} {s : Bytes} (h : Matches r s) (hr : r.within p = true) :
    ∀ b ∈ s, p b = true := by
  induction h with
  | @one cls b bs h =>
    obtain ⟨hcls, hp⟩ := Bool.and_eq_true_iff.mp hr
    obtain ⟨b, heq, hb⟩ := (Matches.one h).byte hcls
    have hnegated : cls.negated = false := by simpa using (Bool.and_eq_true_iff.mp hcls).1
    rw [CharClass.contains, hnegated, Bool.bne_false, List.any_eq_true] at hb
    obtain ⟨⟨lo, hi⟩, hrange, hb⟩ := hb
    simp only [Bool.and_eq_true, decide_eq_true_eq] at hb
    rw [heq, List.forall_mem_singleton]
    simpa using List.all_eq_true.mp (List.all_eq_true.mp hp _ hrange) b.toNat (List.mem_range'_1.mpr (by omega))
  | seq ha hb iha ihb =>
    obtain ⟨hra, hrb⟩ := Bool.and_eq_true_iff.mp hr
    exact List.forall_mem_append.mpr ⟨iha hra, ihb hrb⟩
  | altLeft ha ih => exact ih (Bool.and_eq_true_iff.mp hr).1
  | altRight hb ih => exact ih (Bool.and_eq_true_iff.mp hr).2
  | starCons ha hmore iha ihmore => exact List.forall_mem_append.mpr ⟨iha hr, ihmore hr⟩
  | plus ha hmore iha ihmore => exact List.forall_mem_append.mpr ⟨iha hr, ihmore hr⟩
  | optional ha ih => exact ih hr
  | _ => exact List.forall_mem_nil _

/-- An expression has no match where no text of it stands. -/
theorem ends_eq_nil {r : Regex} {c : Cursor} (h : ∀ s rest, c.rest = s ++ rest → ¬ Matches r s) : r.ends c = [] := by
  refine List.eq_nil_iff_forall_not_mem.mpr fun d hd => ?_
  obtain ⟨s, hs, hmatch⟩ := moves_of_mem_ends r c d hd
  exact h s d.rest hs hmatch

theorem matchLength?_eq_none {r : Regex} {text : Bytes} (h : ∀ s rest, text = s ++ rest → ¬ Matches r s) :
    r.matchLength? text = none := by
  rw [matchLength?, ends_eq_nil h]
  rfl

/-- A text with a full match is a text of the expression. -/
theorem matches_of_matchesAll {r : Regex} {text : Bytes} (h : r.matchesAll text = true) : Matches r text := by
  obtain ⟨d, hd, hrest⟩ := List.any_eq_true.mp h
  obtain ⟨s, hs, hmatch⟩ := moves_of_mem_ends r _ d hd
  have hs : text = s ++ d.rest := hs
  rwa [hs, List.isEmpty_iff.mp hrest, List.append_nil]

/-! ## Preferred matches -/

/-- The preferred match behind a byte, or at the beginning, takes a text in front of another. -/
def Takes (r : Regex) (x : Option UInt8) (u v : Bytes) : Prop := (r.ends ⟨x, u ++ v⟩).head? = some ⟨u.getLast?.or x, v⟩

section
variable {r s : Regex} {cls : CharClass} {x : Option UInt8} {u v w : Bytes} {b : UInt8}

theorem Takes.matchLength? (h : r.Takes none u v) : r.matchLength? (u ++ v) = some u.length := by
  rw [Regex.matchLength?, h, Option.map_some, List.length_append, Nat.add_sub_cancel]

theorem Takes.seq (hr : r.Takes x u (w ++ v)) (hs : s.Takes (u.getLast?.or x) w v) : (r.seq s).Takes x (u ++ w) v := by
  have hlast : (u ++ w).getLast?.or x = w.getLast?.or (u.getLast?.or x) := by rw [List.getLast?_append, Option.or_assoc]
  obtain ⟨more, hends⟩ := List.head?_eq_some_iff.mp hr
  obtain ⟨more', hends'⟩ := List.head?_eq_some_iff.mp hs
  rw [Takes, ends, List.append_assoc, hends, List.flatMap_cons, hends', hlast]
  rfl

theorem Takes.altLeft (h : r.Takes x u v) : (r.alt s).Takes x u v := by
  rw [Takes, ends, List.head?_append, h]
  rfl

theorem Takes.altRight (hr : r.ends ⟨x, u ++ v⟩ = []) (hs : s.Takes x u v) : (r.alt s).Takes x u v := by
  rw [Takes, ends, hr]
  exact hs

theorem Takes.opt (h : r.Takes x u v) : (Regex.opt r).Takes x u v := by
  rw [Takes, Regex.opt, ends, if_pos rfl, List.head?_append, h]
  rfl

theorem Takes.opt_nil (h : r.ends ⟨x, v⟩ = []) : (Regex.opt r).Takes x [] v := by
  rw [Takes, Regex.opt, ends, if_pos rfl, List.nil_append, h]
  rfl

theorem ends_byte (x : Option UInt8) (v : Bytes) (hb : b < 128) :
    (one cls).ends ⟨x, b :: v⟩ = if cls.contains b.toNat then [⟨some b, v⟩] else [] := by
  have hlt : b.toNat < 128 := UInt8.lt_iff_toNat_lt.mp hb
  have hfirst : Scalar.first b v = .char (Char.ofNat b.toNat) := by simp [Scalar.first, hb]
  simp only [ends, Cursor.step?, CharClass.contains_first v hb]
  rw [hfirst, Scalar.width_ofNat hlt]
  split <;> rfl

theorem takes_byte (hb : b < 128) (h : cls.contains b.toNat = true) : (one cls).Takes x [b] v := by
  rw [Takes, List.singleton_append, ends_byte x v hb, if_pos h]
  rfl

theorem Takes.star_nil {greedy : Bool} (hr : r.advances = true) (h : r.ends ⟨x, v⟩ = []) : (star r greedy).Takes x [] v := by
  rw [Takes, ends_star hr, List.nil_append, h]
  cases greedy <;> rfl

theorem Takes.star_cons (hr : r.advances = true) (h : r.Takes x u (w ++ v))
    (hmore : (star r true).Takes (u.getLast?.or x) w v) : (star r true).Takes x (u ++ w) v := by
  have hround : (r.seq (star r true)).Takes x (u ++ w) v := h.seq hmore
  rw [Takes, ends_star hr, if_pos rfl, List.head?_append]
  rw [Takes, ends] at hround
  rw [hround]
  rfl

theorem Takes.plus (hr : r.advances = true) (h : r.Takes x u (w ++ v))
    (hmore : (star r true).Takes (u.getLast?.or x) w v) : (Regex.plus r true).Takes x (u ++ w) v := by
  rw [Takes, ends_plus hr]
  exact h.seq hmore

end

/-! ## Deterministic expressions -/

/-- Whether a match may be able to go on with the byte. -/
def goesOn (b : UInt8) : Regex → Bool
  | .empty | .one _ | .wordBoundary _ | .textStart | .textEnd => false
  | .seq r s => s.goesOn b || !s.advances && r.goesOn b
  | .alt r s => r.goesOn b || s.goesOn b
  | .star r _ | .plus r _ | .optional r _ => r.starts b || r.goesOn b

/-- The classes that a match may be able to go on with. -/
def onward : Regex → List CharClass
  | .empty | .one _ | .wordBoundary _ | .textStart | .textEnd => []
  | .seq r s => s.onward ++ if s.advances then [] else r.onward
  | .alt r s => r.onward ++ s.onward
  | .star r _ | .plus r _ | .optional r _ => r.firsts ++ r.onward

theorem among_onward {r : Regex} {b : UInt8} (h : r.goesOn b = true) : Among b r.onward := by
  induction r with
  | seq r s ihr ihs =>
    simp only [goesOn, Bool.or_eq_true, Bool.and_eq_true, Bool.not_eq_true'] at h
    rcases h with h | ⟨hadvances, h⟩
    · exact (ihs h).append_left _
    · rw [onward, hadvances]
      exact (ihr h).append_right _
  | alt r s ihr ihs =>
    rcases Bool.or_eq_true_iff.mp h with h | h
    · exact (ihr h).append_left _
    · exact (ihs h).append_right _
  | star r _ ih | plus r _ ih | optional r _ ih =>
    rcases Bool.or_eq_true_iff.mp h with h | h
    · exact (among_firsts h).append_left _
    · exact (ih h).append_right _
  | _ => cases h

/-- Whether two classes are of ASCII and have no character in common. -/
def disjoint (cls cls' : CharClass) : Bool :=
  cls.isAscii && cls'.isAscii && cls.ranges.all fun r => cls'.ranges.all fun r' => r.2 < r'.1 || r'.2 < r.1

theorem not_contains_of_disjoint {cls cls' : CharClass} (h : disjoint cls cls' = true) {n : Nat} (hn : cls.contains n = true) :
    cls'.contains n = false := by
  simp only [disjoint, CharClass.isAscii, Bool.and_eq_true, Bool.not_eq_true', List.all_eq_true, Bool.or_eq_true,
    decide_eq_true_eq] at h
  obtain ⟨⟨⟨hnegated, _⟩, hnegated', _⟩, hranges⟩ := h
  simp only [CharClass.contains, hnegated, Bool.bne_false, List.any_eq_true, Bool.and_eq_true, decide_eq_true_eq] at hn
  obtain ⟨r, hr, hn⟩ := hn
  simp only [CharClass.contains, hnegated', Bool.bne_false, List.any_eq_false, Bool.and_eq_true, decide_eq_true_eq, not_and]
  intro r' hr' hle
  have := hranges r hr r' hr'
  omega

/-- Whether no byte is of a class on either side. -/
def apart (classes classes' : List CharClass) : Bool := classes.all fun cls => classes'.all fun cls' => disjoint cls cls'

theorem not_among_of_apart {classes classes' : List CharClass} (h : apart classes classes' = true) {b : UInt8}
    (hb : Among b classes') : ¬ Among b classes := by
  rintro ⟨cls, hcls, hb'⟩
  obtain ⟨cls', hcls', hb⟩ := hb
  have hdisjoint : disjoint cls cls' = true := List.all_eq_true.mp (List.all_eq_true.mp h cls hcls) cls' hcls'
  have hascii := Bool.and_eq_true_iff.mp (Bool.and_eq_true_iff.mp hdisjoint).1
  have hn : cls.contains b.toNat = true := hb'.resolve_right (by simp [hascii.1])
  have hn' : cls'.contains b.toNat = true := hb.resolve_right (by simp [hascii.2])
  rw [not_contains_of_disjoint hdisjoint hn] at hn'
  cases hn'

/-- Whether the next byte always tells if a repetition goes on and which alternative is taken. -/
def deterministic : Regex → Bool
  | .empty => true
  | .one cls => cls.isAscii
  | .wordBoundary _ | .textStart | .textEnd => false
  | .seq r s => r.deterministic && s.deterministic && apart r.onward s.firsts
  | .alt r s => r.deterministic && s.deterministic && s.advances && r.advances && apart r.firsts s.firsts
  | .star r greedy | .plus r greedy => greedy && r.deterministic && r.advances && apart r.onward r.firsts
  | .optional r greedy => greedy && r.deterministic && r.advances

theorem ends_eq_nil_of_starts {r : Regex} (hr : r.advances = true) {v : Bytes} (hv : ∀ b ∈ v.head?, r.starts b = false)
    (x : Option UInt8) : r.ends ⟨x, v⟩ = [] := by
  refine ends_eq_nil fun s rest hs hmatch => ?_
  obtain ⟨b, t, rfl⟩ := List.exists_cons_of_ne_nil (hmatch.ne_nil hr)
  have hs : v = b :: t ++ rest := hs
  have hb := hv b (by rw [hs]; rfl)
  rw [hmatch.starts b rfl] at hb
  cases hb

/-- The next round of a match goes on where the one before cannot. -/
theorem Matches.goesOn_eq_false {r s : Regex} {w v : Bytes} (hw : Matches s w) (hapart : apart r.onward s.firsts = true)
    (hv : w = [] → ∀ b ∈ v.head?, r.goesOn b = false) : ∀ b ∈ (w ++ v).head?, r.goesOn b = false := by
  cases w with
  | nil => exact hv rfl
  | cons c w =>
    intro b hb
    rw [← Bool.not_eq_true]
    exact fun hgoes => not_among_of_apart hapart (among_firsts (hw.starts b hb)) (among_onward hgoes)

/-- A deterministic expression takes its text where it cannot go on. -/
theorem Matches.takes {r : Regex} {u : Bytes} (h : Matches r u) (hr : r.deterministic = true) {v : Bytes}
    (hv : ∀ b ∈ v.head?, r.goesOn b = false) (x : Option UInt8) : r.Takes x u v := by
  induction h generalizing v x with
  | empty => rfl
  | one h =>
    obtain ⟨b, heq, hb⟩ := (Matches.one h).byte hr
    rw [heq]
    exact takes_byte (UInt8.lt_iff_toNat_lt.mpr (lt_of_contains hr hb)) hb
  | @seq r s u w ha hb iha ihb =>
    simp only [deterministic, Bool.and_eq_true] at hr
    simp only [goesOn, Bool.or_eq_false_iff] at hv
    refine (iha hr.1.1 (hb.goesOn_eq_false hr.2 fun hnil b hmem => ?_) x).seq (ihb hr.1.2 (fun b hmem => (hv b hmem).1) _)
    subst hnil
    have hadvances := mt hb.ne_nil (fun h => h rfl)
    simpa [hadvances] using (hv b hmem).2
  | altLeft ha ih =>
    simp only [deterministic, Bool.and_eq_true] at hr
    simp only [goesOn, Bool.or_eq_false_iff] at hv
    exact (ih hr.1.1.1.1 (fun b hmem => (hv b hmem).1) x).altLeft
  | @altRight r s u hb ih =>
    simp only [deterministic, Bool.and_eq_true] at hr
    simp only [goesOn, Bool.or_eq_false_iff] at hv
    refine Takes.altRight (ends_eq_nil_of_starts hr.1.2 (fun b hmem => ?_) x) (ih hr.1.1.1.2 (fun b hmem => (hv b hmem).2) x)
    obtain ⟨c, t, rfl⟩ := List.exists_cons_of_ne_nil (hb.ne_nil hr.1.1.2)
    rw [← Bool.not_eq_true]
    exact fun hstarts => not_among_of_apart hr.2 (among_firsts (hb.starts b hmem)) (among_firsts hstarts)
  | @starNil r greedy =>
    simp only [deterministic, Bool.and_eq_true] at hr
    simp only [goesOn, Bool.or_eq_false_iff] at hv
    exact Takes.star_nil hr.1.2 (ends_eq_nil_of_starts hr.1.2 (fun b hmem => (hv b hmem).1) x)
  | @starCons r greedy u w ha hmore iha ihmore =>
    have hstar := hr
    simp only [deterministic, Bool.and_eq_true] at hr
    obtain ⟨⟨⟨rfl, hround⟩, hadvances⟩, hapart⟩ := hr
    refine Takes.star_cons hadvances (iha hround (hmore.goesOn_eq_false hapart fun _ b hmem => ?_) x) (ihmore hstar hv _)
    have hb := hv b hmem
    simp only [goesOn, Bool.or_eq_false_iff] at hb
    exact hb.2
  | @plus r greedy u w ha hmore iha ihmore =>
    have hstar := hr
    simp only [deterministic, Bool.and_eq_true] at hr
    obtain ⟨⟨⟨rfl, hround⟩, hadvances⟩, hapart⟩ := hr
    refine Takes.plus hadvances (iha hround (hmore.goesOn_eq_false hapart fun _ b hmem => ?_) x) (ihmore hstar hv _)
    have hb := hv b hmem
    simp only [goesOn, Bool.or_eq_false_iff] at hb
    exact hb.2
  | optionalNil =>
    simp only [deterministic, Bool.and_eq_true] at hr
    simp only [goesOn, Bool.or_eq_false_iff] at hv
    obtain ⟨⟨rfl, _⟩, hadvances⟩ := hr
    exact Takes.opt_nil (ends_eq_nil_of_starts hadvances (fun b hmem => (hv b hmem).1) x)
  | optional ha ih =>
    simp only [deterministic, Bool.and_eq_true] at hr
    simp only [goesOn, Bool.or_eq_false_iff] at hv
    obtain ⟨⟨rfl, hr⟩, _⟩ := hr
    exact (ih hr (fun b hmem => (hv b hmem).2) x).opt
  | _ => cases hr

theorem matches_byte {cls : CharClass} {b : UInt8} (hcls : cls.isAscii = true) (h : cls.contains b.toNat = true) :
    Matches (one cls) [b] := by
  have hb : b < 128 := UInt8.lt_iff_toNat_lt.mpr (lt_of_contains hcls h)
  have hone : cls.contains (Scalar.first b []).code = true := by rw [CharClass.contains_first [] hb, h]
  simpa using Matches.one hone

theorem matches_many {cls : CharClass} (hcls : cls.isAscii = true) : ∀ {u : Bytes},
    (∀ b ∈ u, cls.contains b.toNat = true) → Matches (many (one cls)) u
  | [], _ => .starNil
  | b :: u, h => by
    obtain ⟨hb, hu⟩ := List.forall_mem_cons.mp h
    exact .starCons (matches_byte hcls hb) (matches_many hcls hu)

theorem matches_many1 {cls : CharClass} (hcls : cls.isAscii = true) {u : Bytes} (hne : u ≠ [])
    (h : ∀ b ∈ u, cls.contains b.toNat = true) : Matches (many1 (one cls)) u := by
  obtain ⟨b, u, rfl⟩ := List.exists_cons_of_ne_nil hne
  obtain ⟨hb, hu⟩ := List.forall_mem_cons.mp h
  exact .plus (matches_byte hcls hb) (matches_many hcls hu)

end Regex

namespace Scanner

variable {σ κ : Type}

/-- Patterns without empty matches that cannot start with the first byte of the text do not count. -/
theorem lexeme?_filter {ps : List (Pattern σ κ)} (hps : ∀ p ∈ ps, p.regex.advances = true) {b : UInt8}
    {keep : Pattern σ κ → Bool} (hkeep : ∀ p ∈ ps, p.regex.starts b = true → keep p = true) (text : Bytes) :
    lexeme? ps (b :: text) = lexeme? (ps.filter keep) (b :: text) := by
  induction ps with
  | nil => rfl
  | cons p ps ih =>
    obtain ⟨hp, hps⟩ := List.forall_mem_cons.mp hps
    obtain ⟨hkeepp, hkeep⟩ := List.forall_mem_cons.mp hkeep
    rw [List.filter_cons]
    split
    · rw [lexeme?, lexeme?, ih hps hkeep]
    · next hdropped =>
      have hnone : p.regex.matchLength? (b :: text) = none := by
        refine Regex.matchLength?_eq_none fun s rest hs hmatch => hdropped (hkeepp ?_)
        obtain ⟨c, t, rfl⟩ := List.exists_cons_of_ne_nil (hmatch.ne_nil hp)
        cases hs
        exact hmatch.starts b rfl
      rw [lexeme?, hnone]
      exact ih hps hkeep

/-- Patterns that begin apart from an expression do not count in front of a match of it. -/
theorem lexeme?_apart {ps : List (Pattern σ κ)} (hps : ∀ p ∈ ps, p.regex.advances = true) {keep : Pattern σ κ → Bool} {r : Regex}
    (hapart : (ps.filter (!keep ·)).all (fun p => Regex.apart p.regex.firsts r.firsts) = true) {u : Bytes} (hu : r.Matches u)
    (hne : u ≠ []) (v : Bytes) : lexeme? ps (u ++ v) = lexeme? (ps.filter keep) (u ++ v) := by
  obtain ⟨b, t, rfl⟩ := List.exists_cons_of_ne_nil hne
  refine lexeme?_filter hps (fun p hp hstarts => ?_) _
  by_contra hnot
  have hp : p ∈ ps.filter (!keep ·) := List.mem_filter.mpr ⟨hp, by simpa using hnot⟩
  exact Regex.not_among_of_apart (List.all_eq_true.mp hapart p hp) (Regex.among_firsts (hu.starts b rfl))
    (Regex.among_firsts hstarts)

end Scanner

end IrafCl
