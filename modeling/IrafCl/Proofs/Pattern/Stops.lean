import IrafCl.Proofs.Pattern.Matching

/-!
# What stops a match

A repetition of something that is never empty repeats as long as it can (`Regex.ends_star`, `Regex.ends_plus`). A byte
stops an expression if none of its classes takes it and it belongs to no word (`Regex.stopsAt`). Whatever stands behind
such a byte, the expression matches before it what it matches at the end of the text (`Regex.ends_onto`), and so does a
table of such expressions (`Scanner.lexeme?_append`).
-/

namespace IrafCl

/-- A byte of ASCII stands for its own code point. -/
theorem CharClass.contains_first {cls : CharClass} {b : UInt8} (bs : Bytes) (hb : b < 128) :
    cls.contains (Scalar.first b bs).code = cls.contains b.toNat := by
  have hlt : b.toNat < 128 := UInt8.lt_iff_toNat_lt.mp hb
  have hfirst : Scalar.first b bs = .char (Char.ofNat b.toNat) := by simp [Scalar.first, hb]
  rw [hfirst, Scalar.code_char (.inl (by omega))]

/-- The position with more text behind it. -/
def Cursor.onto (v : Bytes) (c : Cursor) : Cursor := ⟨c.before, c.rest ++ v⟩

namespace Regex

/-! ## Repetitions -/

/-- Whether every match has at least one byte. -/
def advances : Regex → Bool
  | .one _ => true
  | .seq a b => a.advances || b.advances
  | .alt a b => a.advances && b.advances
  | .plus a _ => a.advances
  | _ => false

theorem Matches.ne_nil {r : Regex} {s : Bytes} (h : Matches r s) (hr : r.advances = true) : s ≠ [] := by
  induction h with
  | one h => exact List.cons_ne_nil _ _
  | seq ha hb iha ihb =>
    rcases Bool.or_eq_true_iff.mp hr with hr | hr
    · exact List.append_ne_nil_of_left_ne_nil (iha hr) _
    · exact List.append_ne_nil_of_right_ne_nil _ (ihb hr)
  | altLeft ha ih => exact ih (Bool.and_eq_true_iff.mp hr).1
  | altRight hb ih => exact ih (Bool.and_eq_true_iff.mp hr).2
  | plus ha hmore ih => exact List.append_ne_nil_of_left_ne_nil (ih hr) _
  | _ => cases hr

theorem length_lt_of_mem_ends {r : Regex} (hr : r.advances = true) {c d : Cursor} (h : d ∈ r.ends c) :
    d.rest.length < c.rest.length := by
  obtain ⟨s, hs, hmatch⟩ := moves_of_mem_ends r c d h
  rw [hs, List.length_append]
  have := List.length_pos_of_ne_nil (hmatch.ne_nil hr)
  omega

theorem repeatEnds_succ {a : Regex} (ha : a.advances = true) (greedy : Bool) (fuel : Nat) (c : Cursor) :
    repeatEnds greedy a.ends (fuel + 1) c =
      if greedy then (a.ends c).flatMap (repeatEnds greedy a.ends fuel) ++ [c]
      else c :: (a.ends c).flatMap (repeatEnds greedy a.ends fuel) := by
  have hmore : ((a.ends c).flatMap fun d => if d.rest.length < c.rest.length then repeatEnds greedy a.ends fuel d else [d]) =
      (a.ends c).flatMap (repeatEnds greedy a.ends fuel) :=
    List.flatMap_congr fun d hd => if_pos (length_lt_of_mem_ends ha hd)
  rw [repeatEnds, hmore]

/-- Rounds enough for the text are enough. -/
theorem repeatEnds_eq {a : Regex} (ha : a.advances = true) (greedy : Bool) : ∀ {m n : Nat} {c : Cursor},
    c.rest.length ≤ m → c.rest.length ≤ n → repeatEnds greedy a.ends m c = repeatEnds greedy a.ends n c
  | m, n, c, hm, hn => by
    have hnone (h : c.rest.length = 0) : a.ends c = [] := by
      refine List.eq_nil_iff_forall_not_mem.mpr fun d hd => ?_
      have := length_lt_of_mem_ends ha hd
      omega
    match m, n with
    | 0, 0 => rfl
    | 0, n + 1 => rw [repeatEnds_succ ha, hnone (by omega)]; cases greedy <;> rfl
    | m + 1, 0 => rw [repeatEnds_succ ha, hnone (by omega)]; cases greedy <;> rfl
    | m + 1, n + 1 =>
      have hmore : (a.ends c).flatMap (repeatEnds greedy a.ends m) = (a.ends c).flatMap (repeatEnds greedy a.ends n) := by
        refine List.flatMap_congr fun d hd => ?_
        have := length_lt_of_mem_ends ha hd
        exact repeatEnds_eq ha greedy (by omega) (by omega)
      rw [repeatEnds_succ ha, repeatEnds_succ ha, hmore]

/-- A repetition goes on as long as it can, or stops where it is. -/
theorem ends_star {a : Regex} (ha : a.advances = true) (greedy : Bool) (c : Cursor) :
    (star a greedy).ends c =
      if greedy then (a.ends c).flatMap (star a greedy).ends ++ [c] else c :: (a.ends c).flatMap (star a greedy).ends := by
  have hmore : (a.ends c).flatMap (repeatEnds greedy a.ends c.rest.length) = (a.ends c).flatMap (star a greedy).ends := by
    refine List.flatMap_congr fun d hd => ?_
    rw [ends]
    exact repeatEnds_eq ha greedy (Nat.le_of_lt (length_lt_of_mem_ends ha hd)) (Nat.le_refl _)
  rw [ends, repeatEnds_eq ha greedy (Nat.le_refl _) (Nat.le_succ _), repeatEnds_succ ha, hmore]

theorem ends_plus {a : Regex} (ha : a.advances = true) (greedy : Bool) (c : Cursor) :
    (plus a greedy).ends c = (a.ends c).flatMap (star a greedy).ends := by
  rw [ends]
  refine List.flatMap_congr fun d hd => ?_
  rw [if_pos (length_lt_of_mem_ends ha hd), ends]

/-! ## Stops -/

/-- Whether an expression takes nothing of a text that begins with the given byte, and cannot tell it from no text. -/
def stopsAt (next : Option UInt8) : Regex → Bool
  | .empty | .textStart => true
  | .textEnd => false
  | .one cls => next.all fun b => b < 128 && !cls.contains b.toNat
  | .wordBoundary _ => !next.any Cursor.isWordByte
  | .seq a b | .alt a b => a.stopsAt next && b.stopsAt next
  | .star a _ | .plus a _ => a.stopsAt next && a.advances
  | .optional a _ => a.stopsAt next

section
variable {v : Bytes}

theorem step?_onto {cls : CharClass} (h : (one cls).stopsAt v.head? = true) (c : Cursor) :
    (c.onto v).step? cls = (c.step? cls).map (Cursor.onto v) := by
  obtain ⟨before, rest⟩ := c
  have hv : ∀ b ∈ v.head?, b < 128 ∧ cls.contains b.toNat = false := by
    simpa [stopsAt, Option.all_eq_true] using h
  cases rest with
  | nil =>
    cases v with
    | nil => rfl
    | cons b v =>
      obtain ⟨hlt, hb⟩ := hv b rfl
      simp [Cursor.onto, Cursor.step?, CharClass.contains_first v hlt, hb]
  | cons b rest =>
    have htail : ∀ c ∈ v.head?, Scalar.isTail c = false := by
      intro c hc
      rw [← Bool.not_eq_true, Scalar.isTail_iff]
      have hlt : c.toNat < 128 := UInt8.lt_iff_toNat_lt.mp (hv c hc).1
      omega
    have hwidth := (Scalar.width_first b rest).1
    simp only [Cursor.onto, Cursor.step?, List.cons_append, Scalar.first_append b rest htail]
    split
    · rw [List.drop_append_of_le_length (by omega)]
      rfl
    · rfl

theorem atWordBoundary_onto (h : v.head?.any Cursor.isWordByte = false) (c : Cursor) :
    (c.onto v).atWordBoundary = c.atWordBoundary := by
  obtain ⟨before, rest⟩ := c
  cases rest with
  | nil => simp [Cursor.atWordBoundary, Cursor.onto, h]
  | cons b rest => rfl

/-- Before a stop an expression matches as at the end of the text. -/
theorem ends_onto : ∀ {r : Regex}, r.stopsAt v.head? = true → ∀ c : Cursor,
    r.ends (c.onto v) = (r.ends c).map (Cursor.onto v)
  | .empty, _, c => rfl
  | .one cls, h, c => by
    rw [ends, ends, step?_onto h, Option.toList_map]
  | .wordBoundary _, h, c => by
    rw [ends, ends, atWordBoundary_onto (by simpa [stopsAt] using h)]
    split <;> rfl
  | .textStart, _, c => by
    rw [ends, ends, show (c.onto v).before = c.before from rfl]
    split <;> rfl
  | .seq a b, h, c => by
    obtain ⟨ha, hb⟩ := Bool.and_eq_true_iff.mp h
    rw [ends, ends, ends_onto ha, List.flatMap_map, List.map_flatMap]
    exact List.flatMap_congr fun d _ => ends_onto hb d
  | .alt a b, h, c => by
    obtain ⟨ha, hb⟩ := Bool.and_eq_true_iff.mp h
    rw [ends, ends, ends_onto ha, ends_onto hb, List.map_append]
  | .star a greedy, h, c => by
    obtain ⟨ha, hadvances⟩ := Bool.and_eq_true_iff.mp h
    exact ends_star_onto hadvances (fun d => ends_onto ha d) greedy c
  | .plus a greedy, h, c => by
    obtain ⟨ha, hadvances⟩ := Bool.and_eq_true_iff.mp h
    rw [ends_plus hadvances, ends_plus hadvances, ends_onto ha, List.flatMap_map, List.map_flatMap]
    exact List.flatMap_congr fun d _ => ends_star_onto hadvances (fun d => ends_onto ha d) greedy d
  | .optional a greedy, h, c => by
    rw [ends, ends, ends_onto (r := a) h]
    split <;> simp
where
  ends_star_onto {a : Regex} (hadvances : a.advances = true)
      (ha : ∀ c : Cursor, a.ends (c.onto v) = (a.ends c).map (Cursor.onto v)) (greedy : Bool) (c : Cursor) :
      (star a greedy).ends (c.onto v) = ((star a greedy).ends c).map (Cursor.onto v) := by
    have hmore : (a.ends (c.onto v)).flatMap (star a greedy).ends = ((a.ends c).flatMap (star a greedy).ends).map (Cursor.onto v) := by
      rw [ha, List.flatMap_map, List.map_flatMap]
      refine List.flatMap_congr fun d hd => ?_
      have := length_lt_of_mem_ends hadvances hd
      exact ends_star_onto hadvances ha greedy d
    rw [ends_star hadvances, ends_star hadvances, hmore]
    split <;> simp
  termination_by c.rest.length

theorem matchLength?_append {r : Regex} (h : r.stopsAt v.head? = true) (u : Bytes) :
    r.matchLength? (u ++ v) = r.matchLength? u := by
  have hends := ends_onto h ⟨none, u⟩
  unfold matchLength?
  rw [show (⟨none, u ++ v⟩ : Cursor) = Cursor.onto v ⟨none, u⟩ from rfl, hends, List.head?_map, Option.map_map]
  refine congrArg (Option.map · _) (funext fun d => ?_)
  simp only [Function.comp_apply, Cursor.onto, List.length_append]
  omega

end

end Regex

namespace Scanner

variable {σ κ : Type}

/-- Before a stop the patterns of a table match as at the end of the text. -/
theorem lexeme?_append {ps : List (Pattern σ κ)} {v : Bytes} (h : ∀ p ∈ ps, p.regex.stopsAt v.head? = true) (u : Bytes) :
    lexeme? ps (u ++ v) = lexeme? ps u := by
  induction ps with
  | nil => rfl
  | cons p ps ih =>
    obtain ⟨hp, hps⟩ := List.forall_mem_cons.mp h
    rw [lexeme?, lexeme?, Regex.matchLength?_append hp, ih hps]

end Scanner

end IrafCl
