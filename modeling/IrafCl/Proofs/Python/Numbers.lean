import IrafCl.Proofs.Python.Spelling

/-!
# How numbers are spelled

Every decimal number that is written in one of the usual forms is a single token (`spells_decimal`), and so
are octal and hexadecimal integers. Only an exponent lets a number go on over a sign.
-/

namespace IrafCl.Python

/-! ## Bytes of numbers -/

theorem isWordStart_of_isDigit {b : UInt8} (h : Bytes.isDigit b = true) : isWordStart b = false := by
  simpa using Bytes.imp_byte Bytes.isDigit (fun b => !isWordStart b) (by decide) h

theorem isExponentMark_of_isDigit {b : UInt8} (h : Bytes.isDigit b = true) : isExponentMark b = false := by
  simpa using Bytes.imp_byte Bytes.isDigit (fun b => !isExponentMark b) (by decide) h

theorem isSign_of_isDigit {b : UInt8} (h : Bytes.isDigit b = true) : isSign b = false := by
  simpa using Bytes.imp_byte Bytes.isDigit (fun b => !isSign b) (by decide) h

theorem isWordByte_of_isDigit {b : UInt8} (h : Bytes.isDigit b = true) : isWordByte b = true := by
  simp [isWordByte, h]

/-! ## Runs -/

theorem numberRun_cons {decimal marked : Bool} {b : UInt8} (h : isWordByte b = true) (s : Bytes) :
    numberRun decimal marked (b :: s) = b :: numberRun decimal (decimal && isExponentMark b) s := by
  rw [numberRun, if_pos h]

/-- A run goes on over digits, and forgets an exponent mark before them. -/
theorem numberRun_digits {decimal : Bool} {ds : Bytes} (hds : ∀ b ∈ ds, Bytes.isDigit b = true) (s : Bytes) :
    numberRun decimal false (ds ++ s) = ds ++ numberRun decimal false s := by
  induction ds with
  | nil => rfl
  | cons b ds ih =>
    have hb := hds b (by simp)
    rw [List.cons_append, numberRun_cons (isWordByte_of_isDigit hb), isExponentMark_of_isDigit hb, Bool.and_false,
      ih fun c hc => hds c (by simp [hc])]
    rfl

theorem numberRun_seam {decimal : Bool} {rest : Bytes} (hrest : Seam rest) : numberRun decimal false rest = [] := by
  cases rest with
  | nil => rfl
  | cons b rest =>
    rw [numberRun, if_neg (by rw [(hrest b rfl).1]; decide)]
    rfl

/-- A number is one token if the reader takes all of it and finds it well formed. -/
theorem spells_number {b : UInt8} {more : Bytes}
    (hstart : Bytes.isDigit b = true ∨ b = Bytes.ascii '.' ∧ more.head?.any Bytes.isDigit = true)
    (hrun : ∀ rest, Seam rest → numberRun (b ≠ 48 || more.head? ≠ some 120) false (b :: more ++ rest) = b :: more)
    (hvalid : isNumber (b :: more) = true) : Spells (b :: more) [.number (b :: more)] := by
  intro rest hrest
  have hbyte : b ≠ 32 ∧ isWordStart b = false := by
    rcases hstart with h | h
    · refine ⟨?_, isWordStart_of_isDigit h⟩
      rintro rfl
      cases h
    · rw [h.1]
      decide
  have hhead : (b ≠ 48 || (more ++ rest).head? ≠ some 120) = (b ≠ 48 || more.head? ≠ some 120) := by
    cases more with
    | nil =>
      have hx : rest.head? ≠ some 120 := by
        intro hx
        have := (hrest 120 hx).1
        revert this
        decide
      simp [hx]
    | cons c more => rfl
  have hdigit : (Bytes.isDigit b || (b = Bytes.ascii '.' && (more ++ rest).head?.any Bytes.isDigit)) = true := by
    rcases hstart with h | ⟨rfl, h⟩
    · rw [h]; rfl
    · cases more with
      | nil => cases h
      | cons c more => simpa using .inr h
  refine lex_symbol b more ?_
  rw [token?, if_neg hbyte.1, if_neg (by rw [hbyte.2]; decide), if_pos hdigit]
  dsimp only
  rw [hhead, ← List.cons_append, hrun rest hrest, if_pos hvalid]
  rfl

/-! ## Decimal numbers -/

/-- What may follow the digits of a number. -/
inductive Exponent : Bytes → Prop where
  | none : Exponent []
  | some {mark : UInt8} {sign digits : Bytes} (hmark : isExponentMark mark = true)
      (hsign : sign = [] ∨ ∃ b, sign = [b] ∧ isSign b = true) (hne : digits ≠ [])
      (hdigits : ∀ b ∈ digits, Bytes.isDigit b = true) : Exponent (mark :: (sign ++ digits))

/-- The forms of decimal numbers. -/
inductive Decimal : Bytes → Prop where
  | integer {ds : Bytes} (hds : ∀ b ∈ ds, Bytes.isDigit b = true) (h : isInteger ds = true) : Decimal ds
  | pointed {whole fraction exponent : Bytes} (hwhole : ∀ b ∈ whole, Bytes.isDigit b = true)
      (hfraction : ∀ b ∈ fraction, Bytes.isDigit b = true) (hne : whole ++ fraction ≠ []) (h : Exponent exponent) :
      Decimal (whole ++ 46 :: (fraction ++ exponent))
  | marked {whole exponent : Bytes} (hwhole : ∀ b ∈ whole, Bytes.isDigit b = true) (hne : whole ≠ [])
      (h : Exponent exponent) (hexponent : exponent ≠ []) : Decimal (whole ++ exponent)

namespace Exponent

variable {s rest : Bytes}

theorem head (h : Exponent s) : ∀ b ∈ s.head?, Bytes.isDigit b = false ∧ b ≠ 46 ∧ b ≠ 120 ∧ b ≠ 111 := by
  cases h with
  | none => simp
  | @some mark _ _ hmark _ _ _ =>
    intro b hb
    cases hb
    simp only [isExponentMark, Bool.or_eq_true, decide_eq_true_eq] at hmark
    rcases hmark with rfl | rfl <;> decide

theorem isExponent (h : Exponent s) : isExponent s = true := by
  cases h with
  | none => rfl
  | @some mark sign digits hmark hsign hne hdigits =>
    have hall : digits.all Bytes.isDigit = true := List.all_eq_true.mpr hdigits
    have hempty : digits.isEmpty = false := by simpa using hne
    rw [Python.isExponent, hmark]
    rcases hsign with rfl | ⟨b, rfl, hb⟩
    · cases digits with
      | nil => exact absurd rfl hne
      | cons d digits =>
        have hd : isSign d = false := isSign_of_isDigit (hdigits d (by simp))
        simpa [hd] using hall
    · simp [hb, hall, hempty]

theorem run (h : Exponent s) (hrest : Seam rest) : numberRun true false (s ++ rest) = s := by
  cases h with
  | none => exact numberRun_seam hrest
  | @some mark sign digits hmark hsign hne hdigits =>
    have hword : isWordByte mark = true := Bytes.imp_byte isExponentMark isWordByte (by decide) hmark
    have hdone : numberRun true false (digits ++ rest) = digits := by
      rw [numberRun_digits hdigits, numberRun_seam hrest, List.append_nil]
    rw [List.cons_append, numberRun_cons hword, hmark, List.append_assoc]
    congr 1
    rcases hsign with rfl | ⟨b, rfl, hb⟩
    · cases digits with
      | nil => exact absurd rfl hne
      | cons d digits =>
        have hd := isWordByte_of_isDigit (hdigits d (by simp))
        rw [List.cons_append, numberRun_cons hd] at hdone
        rw [List.nil_append, List.cons_append, numberRun_cons hd]
        exact hdone
    · have hsign : isWordByte b = false := by
        simpa using Bytes.imp_byte isSign (fun b => !isWordByte b) (by decide) hb
      rw [List.singleton_append, numberRun, if_neg (by rw [hsign]; decide), if_pos (by simp [hb]), hdone]
      rfl

end Exponent

theorem isNumber_eq {s : Bytes} (h : ∀ b ∈ s.tail.head?, b ≠ 120 ∧ b ≠ 111) : isNumber s = isDecimal s := by
  unfold isNumber
  split
  · exact absurd rfl (h 120 rfl).1
  · exact absurd rfl (h 111 rfl).2
  · rfl

namespace Decimal

variable {s rest : Bytes}

theorem start (h : Decimal s) :
    ∃ b more, s = b :: more ∧ (Bytes.isDigit b = true ∨ b = Bytes.ascii '.' ∧ more.head?.any Bytes.isDigit = true) := by
  have hdigits {ds : Bytes} (tail : Bytes) (hds : ∀ b ∈ ds, Bytes.isDigit b = true) (hne : ds ≠ []) :
      ∃ b more, ds ++ tail = b :: more ∧
        (Bytes.isDigit b = true ∨ b = Bytes.ascii '.' ∧ more.head?.any Bytes.isDigit = true) := by
    cases ds with
    | nil => exact absurd rfl hne
    | cons d ds => exact ⟨d, ds ++ tail, rfl, .inl (hds d (by simp))⟩
  cases h with
  | integer hds h =>
    have hne : s ≠ [] := by rintro rfl; cases h
    simpa using hdigits [] hds hne
  | @pointed whole fraction exponent hwhole hfraction hne h =>
    by_cases hempty : whole = []
    · subst hempty
      refine ⟨46, fraction ++ exponent, rfl, .inr ⟨rfl, ?_⟩⟩
      cases fraction with
      | nil => exact absurd rfl hne
      | cons d fraction => simpa using hfraction d (by simp)
    · exact hdigits _ hwhole hempty
  | marked hwhole hne _ _ => exact hdigits _ hwhole hne

theorem run (h : Decimal s) (hrest : Seam rest) : numberRun true false (s ++ rest) = s := by
  cases h with
  | integer hds _ => rw [numberRun_digits hds, numberRun_seam hrest, List.append_nil]
  | @pointed whole fraction exponent hwhole hfraction _ h =>
    have hpoint : isExponentMark 46 = false := by decide
    rw [List.append_assoc, numberRun_digits hwhole, List.cons_append, numberRun_cons (by decide), hpoint, Bool.and_false,
      List.append_assoc, numberRun_digits hfraction, h.run hrest]
  | marked hwhole _ h _ => rw [List.append_assoc, numberRun_digits hwhole, h.run hrest]

theorem isDecimal (h : Decimal s) : isDecimal s = true := by
  unfold Python.isDecimal
  cases h with
  | integer hds h =>
    have hnil : ∀ b ∈ ([] : Bytes).head?, Bytes.isDigit b = false := nofun
    obtain ⟨htake, hdrop⟩ := takeWhile_of_seam hds hnil
    rw [List.append_nil] at htake hdrop
    rw [htake, hdrop]
    exact h
  | @pointed whole fraction exponent hwhole hfraction hne h =>
    have hpoint : ∀ b ∈ (46 :: (fraction ++ exponent) : Bytes).head?, Bytes.isDigit b = false := by
      intro b hb
      cases hb
      decide
    obtain ⟨htake, hdrop⟩ := takeWhile_of_seam hwhole hpoint
    obtain ⟨htake', hdrop'⟩ := takeWhile_of_seam hfraction fun b hb => (h.head b hb).1
    have hempty : (whole ++ fraction).isEmpty = false := by simpa using hne
    rw [htake, hdrop]
    show (!(whole ++ (fraction ++ exponent).takeWhile Bytes.isDigit).isEmpty &&
      isExponent ((fraction ++ exponent).dropWhile Bytes.isDigit)) = true
    rw [htake', hdrop', hempty, h.isExponent]
    rfl
  | @marked whole exponent hwhole hne h hexponent =>
    obtain ⟨htake, hdrop⟩ := takeWhile_of_seam hwhole fun b hb => (h.head b hb).1
    have hempty : whole.isEmpty = false := by simpa using hne
    rw [htake, hdrop]
    split
    · exact absurd rfl hexponent
    · next rest => exact absurd rfl (h.head 46 rfl).2.1
    · dsimp only
      rw [hempty, h.isExponent]
      rfl

/-- The bytes that decimal numbers are made of. -/
theorem bytes (h : Decimal s) : ∀ b ∈ s, (Bytes.isDigit b || b == 46 || isExponentMark b || isSign b) = true := by
  have hexponent {s : Bytes} (h : Exponent s) :
      ∀ b ∈ s, (Bytes.isDigit b || b == 46 || isExponentMark b || isSign b) = true := by
    intro b hb
    cases h with
    | none => cases hb
    | @some mark sign digits hmark hsign hne hdigits =>
      rcases List.mem_cons.mp hb with rfl | hb
      · simp [hmark]
      rcases List.mem_append.mp hb with hb | hb
      · rcases hsign with rfl | ⟨c, rfl, hc⟩
        · cases hb
        · rw [List.mem_singleton.mp hb, hc, Bool.or_true]
      · simp [hdigits b hb]
  intro b hb
  cases h with
  | integer hds _ => simp [hds b hb]
  | pointed hwhole hfraction _ h =>
    rcases List.mem_append.mp hb with hb | hb
    · simp [hwhole b hb]
    rcases List.mem_cons.mp hb with rfl | hb
    · rfl
    rcases List.mem_append.mp hb with hb | hb
    · simp [hfraction b hb]
    · exact hexponent h b hb
  | marked hwhole _ h _ =>
    rcases List.mem_append.mp hb with hb | hb
    · simp [hwhole b hb]
    · exact hexponent h b hb

end Decimal

/-- A decimal number is one token. -/
theorem spells_decimal {s : Bytes} (h : Decimal s) : Spells s [.number s] := by
  obtain ⟨b, more, rfl, hstart⟩ := h.start
  have hsecond : ∀ c ∈ more.head?, c ≠ 120 ∧ c ≠ 111 := by
    intro c hc
    have hbyte := h.bytes c (List.mem_cons_of_mem _ (List.mem_of_mem_head? hc))
    constructor <;> (rintro rfl; cases hbyte)
  refine spells_number hstart (fun rest hrest => ?_) ?_
  · have hflag : (b ≠ 48 || more.head? ≠ some 120) = true := by
      have hx : more.head? ≠ some 120 := fun hx => (hsecond 120 hx).1 rfl
      simp [hx]
    rw [hflag]
    exact h.run hrest
  · rw [isNumber_eq (s := b :: more) hsecond]
    exact h.isDecimal

/-! ## Integers of other bases -/

theorem spells_octal {ds : Bytes} (hne : ds ≠ []) (hds : ∀ b ∈ ds, isOctalDigit b = true) :
    Spells (48 :: 111 :: ds) [.number (48 :: 111 :: ds)] := by
  refine spells_number (.inl rfl) (fun rest hrest => ?_) ?_
  · have hdigits : ∀ b ∈ ds, Bytes.isDigit b = true := fun b hb =>
      Bytes.imp_byte isOctalDigit Bytes.isDigit (by decide) (hds b hb)
    rw [List.cons_append, List.cons_append, numberRun_cons (by decide), numberRun_cons (by decide)]
    have hmark : isExponentMark 111 = false := by decide
    rw [hmark, Bool.and_false, numberRun_digits hdigits, numberRun_seam hrest, List.append_nil]
  · have hall : ds.all isOctalDigit = true := List.all_eq_true.mpr hds
    have hempty : ds.isEmpty = false := by simpa using hne
    rw [isNumber, hempty, hall]
    rfl

theorem spells_hexadecimal {ds : Bytes} (hne : ds ≠ []) (hds : ∀ b ∈ ds, isHexDigit b = true) :
    Spells (48 :: 120 :: ds) [.number (48 :: 120 :: ds)] := by
  have hrun (rest : Bytes) (hrest : Seam rest) : numberRun false false (ds ++ rest) = ds := by
    induction ds with
    | nil => exact numberRun_seam hrest
    | cons b ds ih =>
      have hb : isWordByte b = true := Bytes.imp_byte isHexDigit isWordByte (by decide) (hds b (by simp))
      rw [List.cons_append, numberRun_cons hb, Bool.false_and]
      cases ds with
      | nil => exact congrArg (b :: ·) (numberRun_seam hrest)
      | cons c ds => rw [ih (by simp) fun c hc => hds c (List.mem_cons_of_mem _ hc)]
  refine spells_number (.inl rfl) (fun rest hrest => ?_) ?_
  · rw [List.cons_append, List.cons_append, numberRun_cons (by decide), numberRun_cons (by decide)]
    exact congrArg (48 :: 120 :: ·) (hrun rest hrest)
  · have hall : ds.all isHexDigit = true := List.all_eq_true.mpr hds
    have hempty : ds.isEmpty = false := by simpa using hne
    rw [isNumber, hempty, hall]
    rfl

/-! ## Numbers of all bases -/

/-- A number as it is written. -/
inductive Numeral : Bytes → Prop where
  | decimal {s : Bytes} (h : Decimal s) : Numeral s
  | octal {ds : Bytes} (hne : ds ≠ []) (hds : ∀ b ∈ ds, isOctalDigit b = true) : Numeral (48 :: 111 :: ds)
  | hexadecimal {ds : Bytes} (hne : ds ≠ []) (hds : ∀ b ∈ ds, isHexDigit b = true) : Numeral (48 :: 120 :: ds)

/-- A number is one token. -/
theorem Numeral.spells {s : Bytes} (h : Numeral s) : Spells s [.number s] := by
  cases h with
  | decimal h => exact spells_decimal h
  | octal hne hds => exact spells_octal hne hds
  | hexadecimal hne hds => exact spells_hexadecimal hne hds

theorem Numeral.ne_nil {s : Bytes} (h : Numeral s) : s ≠ [] := by
  cases h with
  | decimal h =>
    obtain ⟨b, more, rfl, _⟩ := h.start
    simp
  | octal _ _ => simp
  | hexadecimal _ _ => simp

theorem Numeral.bytes {s : Bytes} (h : Numeral s) : ∀ b ∈ s, (isWordByte b || isSign b) = true := by
  intro b hb
  cases h with
  | decimal h =>
    exact Bytes.imp_byte (fun b => Bytes.isDigit b || b == 46 || isExponentMark b || isSign b)
      (fun b => isWordByte b || isSign b) (by decide) (h.bytes b hb)
  | octal _ hds =>
    rcases List.mem_cons.mp hb with rfl | hb
    · rfl
    rcases List.mem_cons.mp hb with rfl | hb
    · rfl
    exact Bytes.imp_byte isOctalDigit (fun b => isWordByte b || isSign b) (by decide) (hds b hb)
  | hexadecimal _ hds =>
    rcases List.mem_cons.mp hb with rfl | hb
    · rfl
    rcases List.mem_cons.mp hb with rfl | hb
    · rfl
    exact Bytes.imp_byte isHexDigit (fun b => isWordByte b || isSign b) (by decide) (hds b hb)

/-- The decimal digits of a number do not begin with a zero, unless it is zero. -/
theorem digits_ofNat (n : Nat) :
    (∀ b ∈ Bytes.ofNat n, Bytes.isDigit b = true) ∧ (n ≠ 0 → (Bytes.ofNat n).head? ≠ some 48) := by
  have hdigit : ∀ d < 10, Bytes.isDigit (Bytes.ascii d.digitChar) = true ∧
      (d ≠ 0 → Bytes.ascii d.digitChar ≠ 48) := by decide
  induction n using Nat.strongRecOn with
  | ind n ih =>
    by_cases hlt : n < 10
    · rw [Bytes.ofNat_of_lt hlt]
      simpa using hdigit n hlt
    · obtain ⟨hdigits, hhead⟩ := ih (n / 10) (by omega)
      rw [Bytes.ofNat_of_le (Nat.le_of_not_lt hlt)]
      refine ⟨fun b hb => ?_, fun _ => ?_⟩
      · rcases List.mem_append.mp hb with hb | hb
        · exact hdigits b hb
        · rw [List.mem_singleton.mp hb]
          exact (hdigit _ (Nat.mod_lt _ (by decide))).1
      · rw [List.head?_append_of_ne_nil _ (Bytes.ofNat_ne_nil _)]
        exact hhead (by omega)

theorem numeral_ofNat (n : Nat) : Numeral (Bytes.ofNat n) := by
  obtain ⟨hdigits, hhead⟩ := digits_ofNat n
  refine .decimal (.integer hdigits ?_)
  by_cases hn : n = 0
  · subst hn
    rfl
  · have hne : (Bytes.ofNat n).isEmpty = false := by simpa using Bytes.ofNat_ne_nil n
    simp [isInteger, hne, hhead hn]

end IrafCl.Python
