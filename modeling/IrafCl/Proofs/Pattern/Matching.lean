import IrafCl.Proofs.Outcome
import IrafCl.Proofs.Text.Scalar
import IrafCl.Scanner

/-!
# What a pattern matches

The texts of an expression are given by a relation (`Regex.Matches`), which leaves out what stands around
a text. Whatever the matcher consumes is such a text (`Regex.moves_of_mem_ends`), so every lexeme is a text of its pattern
(`Scanner.matches_of_lexeme?`).
-/

namespace IrafCl

/-- Whether a class has only ASCII characters. -/
def CharClass.isAscii (cls : CharClass) : Bool := !cls.negated && cls.ranges.all fun r => r.2 < 128

namespace Regex

/-- A text that an expression matches. -/
inductive Matches : Regex → Bytes → Prop where
  | empty : Matches .empty []
  | one {cls : CharClass} {b : UInt8} {bs : Bytes} (h : cls.contains (Scalar.first b bs).code = true) :
      Matches (.one cls) (b :: bs.take ((Scalar.first b bs).width - 1))
  | wordBoundary (isBoundary : Bool) : Matches (.wordBoundary isBoundary) []
  | textStart : Matches .textStart []
  | textEnd : Matches .textEnd []
  | seq {a b : Regex} {s t : Bytes} (ha : Matches a s) (hb : Matches b t) : Matches (.seq a b) (s ++ t)
  | altLeft {a b : Regex} {s : Bytes} (ha : Matches a s) : Matches (.alt a b) s
  | altRight {a b : Regex} {s : Bytes} (hb : Matches b s) : Matches (.alt a b) s
  | starNil {a : Regex} {greedy : Bool} : Matches (.star a greedy) []
  | starCons {a : Regex} {greedy : Bool} {s t : Bytes} (ha : Matches a s) (hmore : Matches (.star a greedy) t) :
      Matches (.star a greedy) (s ++ t)
  | plus {a : Regex} {greedy : Bool} {s t : Bytes} (ha : Matches a s) (hmore : Matches (.star a greedy) t) :
      Matches (.plus a greedy) (s ++ t)
  | optionalNil {a : Regex} {greedy : Bool} : Matches (.optional a greedy) []
  | optional {a : Regex} {greedy : Bool} {s : Bytes} (ha : Matches a s) : Matches (.optional a greedy) s

theorem Matches.of_seq {a b : Regex} {s : Bytes} (h : Matches (.seq a b) s) :
    ∃ x y, s = x ++ y ∧ Matches a x ∧ Matches b y := by
  cases h with
  | seq ha hb => exact ⟨_, _, rfl, ha, hb⟩

theorem Matches.of_opt {a : Regex} {s : Bytes} (h : Matches (opt a) s) : s = [] ∨ Matches a s := by
  cases h with
  | optionalNil => exact .inl rfl
  | optional ha => exact .inr ha

/-! ## ASCII expressions -/

theorem lt_of_contains {cls : CharClass} (h : cls.isAscii = true) {n : Nat} (hn : cls.contains n = true) :
    n < 128 := by
  simp only [CharClass.isAscii, Bool.and_eq_true, Bool.not_eq_true', List.all_eq_true, decide_eq_true_eq] at h
  simp only [CharClass.contains, h.1, bne_iff_ne, ne_eq, Bool.not_eq_false, List.any_eq_true] at hn
  obtain ⟨r, hr, hle⟩ := hn
  simp only [Bool.and_eq_true, decide_eq_true_eq] at hle
  have := h.2 r hr
  omega

/-- A class of ASCII characters takes a single byte. -/
theorem Matches.byte {cls : CharClass} (hcls : cls.isAscii = true) {s : Bytes} (h : Matches (.one cls) s) :
    ∃ b, s = [b] ∧ cls.contains b.toNat = true := by
  cases h with
  | @one _ b bs hb =>
    obtain ⟨hlt, hfirst⟩ := Scalar.first_of_code_lt (lt_of_contains hcls hb)
    have hb' : b.toNat < 128 := UInt8.lt_iff_toNat_lt.mp hlt
    refine ⟨b, ?_, ?_⟩
    · rw [hfirst, Scalar.width_ofNat hb']
      simp
    · rwa [hfirst, Scalar.code_char (.inl (by omega))] at hb

/-- A repetition of a class of ASCII characters takes bytes of the class. -/
theorem Matches.run {cls : CharClass} (hcls : cls.isAscii = true) {s : Bytes} (h : Matches (many (.one cls)) s) :
    ∀ b ∈ s, cls.contains b.toNat = true := by
  unfold many at h
  generalize hr : Regex.star (.one cls) true = r at h
  induction h with
  | starNil => simp
  | starCons ha hmore _ ih =>
    cases hr
    obtain ⟨b, rfl, hb⟩ := ha.byte hcls
    simpa [hb] using ih rfl
  | _ => cases hr

theorem Matches.run1 {cls : CharClass} (hcls : cls.isAscii = true) {s : Bytes} (h : Matches (many1 (.one cls)) s) :
    s ≠ [] ∧ ∀ b ∈ s, cls.contains b.toNat = true := by
  cases h with
  | plus ha hmore =>
    obtain ⟨b, rfl, hb⟩ := ha.byte hcls
    refine ⟨by simp, ?_⟩
    simpa [hb] using Matches.run hcls hmore

theorem utf8EncodeChar_ascii {c : Char} (h : c.toNat < 128) : String.utf8EncodeChar c = [Bytes.ascii c] := by
  have hle : c.val.toNat ≤ 0x7f := Nat.le_of_lt_succ h
  simp only [String.utf8EncodeChar, hle, if_true]
  rfl

theorem Matches.char {c : Char} (hc : c.toNat < 128) {s : Bytes} (h : Matches (.one (CharClass.single c)) s) :
    s = String.utf8EncodeChar c := by
  obtain ⟨b, rfl, hb⟩ := Matches.byte (by simpa [CharClass.single, CharClass.isAscii] using hc) h
  have hb : b.toNat = c.toNat := by
    simp only [CharClass.single, CharClass.contains, List.any_cons, List.any_nil, Bool.or_false, bne_iff_ne, ne_eq,
      Bool.not_eq_false, Bool.and_eq_true, decide_eq_true_eq] at hb
    omega
  rw [utf8EncodeChar_ascii hc, Bytes.ascii, ← hb, UInt8.ofNat_toNat]

/-- A literal text of ASCII characters is matched by nothing but itself. -/
theorem Matches.text_eq {w : String} (hw : w.toList.all (·.toNat < 128) = true) {s : Bytes}
    (h : Matches (text w) s) : s = w := by
  unfold text at h
  unfold Bytes.ofString
  generalize w.toList = cs at h hw
  induction cs generalizing s with
  | nil => cases h; rfl
  | cons c cs ih =>
    simp only [List.all_cons, Bool.and_eq_true, decide_eq_true_eq] at hw
    cases cs with
    | nil => rw [Matches.char hw.1 h]; simp
    | cons d cs =>
      cases h with
      | seq ha hb =>
        rw [Matches.char hw.1 ha, ih hb hw.2]
        simp only [List.flatMap_cons]

/-- A choice of literal texts is matched by one of them. -/
theorem Matches.choice_texts (w : String) (ws : List String)
    (hws : ∀ v ∈ w :: ws, v.toList.all (·.toNat < 128) = true) {s : Bytes}
    (h : Matches (choice ((w :: ws).map text)) s) : s ∈ (w :: ws).map Bytes.ofString := by
  induction ws generalizing w with
  | nil => simp [Matches.text_eq (hws w (by simp)) h]
  | cons v ws ih =>
    cases h with
    | altLeft h => simp [Matches.text_eq (hws w (by simp)) h]
    | altRight h => exact List.mem_cons_of_mem _ (ih v (fun u hu => hws u (List.mem_cons_of_mem _ hu)) h)

/-- A cursor moves over a text of an expression. -/
def Moves (r : Regex) (c d : Cursor) : Prop := ∃ s, c.rest = s ++ d.rest ∧ Matches r s

theorem moves_step {cls : CharClass} {c d : Cursor} (h : c.step? cls = some d) : Moves (.one cls) c d := by
  unfold Cursor.step? at h
  split at h
  · cases h
  · next b bs hrest =>
    dsimp only at h
    split at h
    · next hcode =>
      cases h
      refine ⟨_, ?_, .one hcode⟩
      rw [hrest, List.cons_append, List.take_append_drop]
    · cases h

theorem moves_repeat {a : Regex} (greedy : Bool) (ha : ∀ c d, d ∈ a.ends c → Moves a c d) :
    ∀ (fuel : Nat) (c d : Cursor), d ∈ repeatEnds greedy a.ends fuel c → Moves (.star a greedy) c d := by
  intro fuel
  induction fuel with
  | zero =>
    intro c d h
    rw [repeatEnds, List.mem_singleton] at h
    subst h
    exact ⟨[], rfl, .starNil⟩
  | succ fuel ih =>
    intro c d h
    have hsplit : d = c ∨ ∃ e ∈ a.ends c,
        d ∈ if e.rest.length < c.rest.length then repeatEnds greedy a.ends fuel e else [e] := by
      rw [repeatEnds] at h
      split at h
      · rcases List.mem_append.mp h with h | h
        · exact .inr (List.mem_flatMap.mp h)
        · exact .inl (List.mem_singleton.mp h)
      · rcases List.mem_cons.mp h with h | h
        · exact .inl h
        · exact .inr (List.mem_flatMap.mp h)
    rcases hsplit with rfl | ⟨e, he, hd⟩
    · exact ⟨[], rfl, .starNil⟩
    · obtain ⟨s, hs, hmatch⟩ := ha c e he
      split at hd
      · obtain ⟨t, ht, hmore⟩ := ih e d hd
        exact ⟨s ++ t, by rw [hs, ht, List.append_assoc], .starCons hmatch hmore⟩
      · rw [List.mem_singleton] at hd
        subst hd
        exact ⟨s ++ [], by rw [hs, List.append_nil], .starCons hmatch .starNil⟩

/-- The matcher consumes only texts of the expression. -/
theorem moves_of_mem_ends : ∀ (r : Regex) (c d : Cursor), d ∈ r.ends c → Moves r c d
  | .empty, c, d, h => by
    rw [ends, List.mem_singleton] at h
    subst h
    exact ⟨[], rfl, .empty⟩
  | .one cls, c, d, h => by
    rw [ends, Option.mem_toList] at h
    exact moves_step h
  | .wordBoundary isBoundary, c, d, h => by
    rw [ends] at h
    split at h
    · rw [List.mem_singleton] at h
      subst h
      exact ⟨[], rfl, .wordBoundary _⟩
    · cases h
  | .textStart, c, d, h => by
    rw [ends] at h
    split at h
    · rw [List.mem_singleton] at h
      subst h
      exact ⟨[], rfl, .textStart⟩
    · cases h
  | .textEnd, c, d, h => by
    rw [ends] at h
    split at h
    · rw [List.mem_singleton] at h
      subst h
      exact ⟨[], rfl, .textEnd⟩
    · cases h
  | .seq a b, c, d, h => by
    rw [ends] at h
    obtain ⟨e, he, hd⟩ := List.mem_flatMap.mp h
    obtain ⟨s, hs, ha⟩ := moves_of_mem_ends a c e he
    obtain ⟨t, ht, hb⟩ := moves_of_mem_ends b e d hd
    exact ⟨s ++ t, by rw [hs, ht, List.append_assoc], .seq ha hb⟩
  | .alt a b, c, d, h => by
    rw [ends] at h
    rcases List.mem_append.mp h with h | h
    · obtain ⟨s, hs, ha⟩ := moves_of_mem_ends a c d h
      exact ⟨s, hs, .altLeft ha⟩
    · obtain ⟨s, hs, hb⟩ := moves_of_mem_ends b c d h
      exact ⟨s, hs, .altRight hb⟩
  | .star a greedy, c, d, h => by
    rw [ends] at h
    exact moves_repeat greedy (moves_of_mem_ends a) _ c d h
  | .plus a greedy, c, d, h => by
    rw [ends] at h
    obtain ⟨e, he, hd⟩ := List.mem_flatMap.mp h
    obtain ⟨s, hs, ha⟩ := moves_of_mem_ends a c e he
    split at hd
    · obtain ⟨t, ht, hmore⟩ := moves_repeat greedy (moves_of_mem_ends a) _ e d hd
      exact ⟨s ++ t, by rw [hs, ht, List.append_assoc], .plus ha hmore⟩
    · rw [List.mem_singleton] at hd
      subst hd
      exact ⟨s ++ [], by rw [hs, List.append_nil], .plus ha .starNil⟩
  | .optional a greedy, c, d, h => by
    have hsplit : d ∈ a.ends c ∨ d = c := by
      rw [ends] at h
      split at h
      · simpa using h
      · rcases List.mem_cons.mp h with h | h
        · exact .inr h
        · exact .inl h
    rcases hsplit with h | rfl
    · obtain ⟨s, hs, ha⟩ := moves_of_mem_ends a c d h
      exact ⟨s, hs, .optional ha⟩
    · exact ⟨[], rfl, .optionalNil⟩

/-- A match at the beginning of a text is a text of the expression. -/
theorem matches_of_matchLength? {r : Regex} {text : Bytes} {n : Nat} (h : r.matchLength? text = some n) :
    Matches r (text.take n) := by
  unfold matchLength? at h
  obtain ⟨d, hd, rfl⟩ := Option.map_eq_some_iff.mp h
  obtain ⟨s, hs, hmatch⟩ := moves_of_mem_ends r _ d (List.mem_of_mem_head? hd)
  have hs : text = s ++ d.rest := hs
  have hlen : text.length - d.rest.length = s.length := by rw [hs]; simp
  rw [hlen, hs, List.take_left]
  exact hmatch

end Regex

namespace Scanner

variable {σ κ : Type}

theorem matches_of_lexeme? {patterns : List (Pattern σ κ)} {text : Bytes} {p : Pattern σ κ} {n : Nat}
    (h : lexeme? patterns text = some (p, n)) : p ∈ patterns ∧ p.regex.Matches (text.take n) := by
  induction patterns with
  | nil => cases h
  | cons q patterns ih =>
    rw [lexeme?] at h
    split at h
    · next m hm =>
      cases h
      exact ⟨by simp, Regex.matches_of_matchLength? hm⟩
    · obtain ⟨hmem, hmatch⟩ := ih h
      exact ⟨List.mem_cons_of_mem _ hmem, hmatch⟩

end Scanner

end IrafCl
