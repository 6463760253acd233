import IrafCl.Proofs.Code.Printing
import IrafCl.Proofs.Script.Lexemes
import IrafCl.Script.Lowering.Expr

/-!
# Names in generated code

The parts of a CL name are words without dots (`parts_of_matches`), and each becomes a Python identifier
(`isIdentifier_identifier`). So a reference to a name is printed as a path, or as a field of the object that
is looked up for it (`prints_reference`).
-/

namespace IrafCl.Script

open Python (IsWord isWordStart isWordByte isIdentifier operandLevel)
open Code (IsPath Prints)

/-- A part of a name. -/
structure IsPart (w : Bytes) : Prop where
  start : ∃ b more, w = b :: more ∧ isWordStart b = true
  bytes : ∀ b ∈ w, (isWordStart b || Bytes.isDigit b) = true

theorem IsPart.undotted {w : Bytes} (h : IsPart w) : Bytes.ascii '.' ∉ w := by
  intro hdot
  cases h.bytes _ hdot

theorem IsPart.isWordByte {w : Bytes} (h : IsPart w) : ∀ b ∈ w, isWordByte b = true := by
  intro b hb
  rw [Python.isWordByte, h.bytes b hb, Bool.true_or]

/-! ## Lexemes -/

theorem isPart_of_matches {w : Bytes} (h : Lexicon.identifier.Matches w) : IsPart w := by
  cases h with
  | seq hstart hmore =>
    obtain ⟨b, rfl, hb⟩ := hstart.byte rfl
    have hstart : isWordStart b = true :=
      Bytes.imp_byte (fun b => Lexicon.identStart.contains b.toNat) isWordStart (by decide) hb
    refine ⟨⟨b, _, rfl, hstart⟩, fun c hc => ?_⟩
    rcases List.mem_cons.mp hc with rfl | hc
    · rw [hstart, Bool.true_or]
    · exact Bytes.imp_byte (fun b => Lexicon.identPart.contains b.toNat) (fun b => isWordStart b || Bytes.isDigit b)
        (by decide) (hmore.run rfl c hc)

/-- The parts of a name that the lexicon has. -/
theorem parts_of_matches {path : Bytes} (h : Lexicon.name.Matches path) : ∀ w ∈ Code.parts path, IsPart w := by
  have hmore {rest : Bytes} (hrest : (Regex.many (.seq (Lexicon.char '.') Lexicon.identifier)).Matches rest) :
      ∀ {w : Bytes}, IsPart w → ∀ v ∈ Code.parts (w ++ rest), IsPart v := by
    unfold Regex.many at hrest
    generalize hr : Regex.star _ true = r at hrest
    induction hrest with
    | starNil =>
      intro w hw v hv
      rw [List.append_nil, Code.parts, Bytes.pieces_of_not_mem hw.undotted, List.mem_singleton] at hv
      rwa [hv]
    | starCons ha _ _ ih =>
      intro w hw v hv
      cases hr
      cases ha with
      | seq hdot hident =>
        rw [hdot.char (by decide)] at hv
        have hcut : ∀ s, Code.parts (w ++ Bytes.ascii '.' :: s) = w :: Code.parts s := fun s =>
          Bytes.pieces_append s hw.undotted
        rcases List.mem_cons.mp (hcut _ ▸ hv) with rfl | hv
        · exact hw
        · exact ih rfl (isPart_of_matches hident) v hv
    | _ => cases hr
  cases h with
  | seq hfirst hrest => exact hmore hrest (isPart_of_matches hfirst)

/-- A whole name begins as a word and goes on as one. -/
theorem word_of_matches {path : Bytes} (h : Lexicon.name.Matches path) :
    (∃ b more, path = b :: more ∧ isWordStart b = true) ∧ ∀ b ∈ path, isWordByte b = true := by
  have hparts := parts_of_matches h
  have hpath : path = Code.dotted (Code.parts path) := (Bytes.join_pieces _ path).symm
  have hne : Code.parts path ≠ [] := Bytes.pieces_ne_nil _ path
  rw [hpath]
  generalize Code.parts path = parts at hparts hne
  refine ⟨?_, fun b hb => ?_⟩
  · cases parts with
    | nil => exact absurd rfl hne
    | cons w parts =>
      obtain ⟨tail, htail⟩ := @Python.head_dotted w parts
      obtain ⟨b, more, rfl, hb⟩ := (hparts w (by simp)).start
      exact ⟨b, more ++ tail, by rw [htail]; rfl, hb⟩
  · rcases Python.mem_dotted hb with rfl | ⟨w, hw, hb⟩
    · rfl
    · exact (hparts w hw).isWordByte b hb

/-! ## Identifiers -/

/-- The bytes of an identifier that a name becomes. -/
theorem mem_identifier {w : Bytes} {b : UInt8} (h : b ∈ Code.identifier w) :
    b ∈ w ∧ b ≠ Bytes.ascii '$' ∨ Bytes.isUpper b = true := by
  have hsubstitute : ∀ {b}, b ∈ Bytes.substitute (Bytes.ascii '$') "DOLLAR" w →
      b ∈ w ∧ b ≠ Bytes.ascii '$' ∨ Bytes.isUpper b = true := by
    intro b hb
    obtain ⟨c, hc, hb⟩ := List.mem_flatMap.mp hb
    split at hb
    · have hupper : ∀ b ∈ Bytes.ofString "DOLLAR", Bytes.isUpper b = true := List.all_eq_true.mp (by decide)
      exact .inr (hupper b hb)
    · next hdollar =>
      rw [List.mem_singleton] at hb
      subst hb
      exact .inl ⟨hc, hdollar⟩
  unfold Code.identifier at h
  dsimp only at h
  split at h
  · rcases List.mem_append.mp h with h | h
    · have hupper : ∀ b ∈ Bytes.ofString "PY", Bytes.isUpper b = true := List.all_eq_true.mp (by decide)
      exact .inr (hupper b h)
    · exact hsubstitute h
  · exact hsubstitute h

/-- What begins as a word and goes on as one becomes a word that Python does not keep for itself. -/
theorem isWord_identifier {w : Bytes} (hstart : ∃ b more, w = b :: more ∧ isWordStart b = true)
    (hbytes : ∀ b ∈ w, isWordByte b = true) : IsWord (Code.identifier w) := by
  refine ⟨?_, fun b hb => ?_, ?_⟩
  · obtain ⟨b, more, rfl, hb⟩ := hstart
    unfold Code.identifier
    dsimp only
    split
    · exact ⟨80, _, rfl, rfl⟩
    · rw [Bytes.substitute, List.flatMap_cons]
      split
      · exact ⟨68, _, rfl, rfl⟩
      · exact ⟨b, _, rfl, hb⟩
  · rcases mem_identifier hb with ⟨hb, _⟩ | hb
    · exact hbytes b hb
    · exact Bytes.imp_byte Bytes.isUpper isWordByte (by decide) hb
  · unfold Code.identifier
    dsimp only
    split
    · next hkeyword =>
      have hmarked : ∀ k ∈ Code.keywords, "PY" ++ k ∉ Code.keywords := by decide
      exact hmarked _ (List.contains_iff_mem.mp hkeyword)
    · next hkeyword => exact fun hmem => hkeyword (List.contains_iff_mem.mpr hmem)

theorem isIdentifier_identifier {w : Bytes} (h : IsPart w) : isIdentifier (Code.identifier w) = true := by
  have hword := isWord_identifier h.start h.isWordByte
  obtain ⟨b, more, heq, hb⟩ := hword.start
  have hdigit : Bytes.isDigit b = false := by
    simpa using Bytes.imp_byte isWordStart (fun b => !Bytes.isDigit b) (by decide) hb
  have hkeyword : Code.keywords.contains (Code.identifier w) = false := by simpa using hword.free
  have hbytes : (Code.identifier w).all
      (fun b => Bytes.isLower b || Bytes.isUpper b || Bytes.isDigit b || b == Bytes.ascii '_') = true := by
    rw [List.all_eq_true]
    intro b hb
    rcases mem_identifier hb with ⟨hb, hdollar⟩ | hb
    · have hbyte := h.bytes b hb
      simp only [isWordStart, Bool.or_eq_true, beq_iff_eq] at hbyte ⊢
      tauto
    · simp [hb]
  rw [isIdentifier, hkeyword, hbytes, heq]
  simp [hdigit]

theorem isPath_under {owner : Bytes} (howner : isIdentifier owner = true) {parts : List Bytes}
    (hparts : ∀ w ∈ parts, IsPart w) : IsPath (owner :: parts.map Code.identifier) := by
  refine ⟨by simp, ?_⟩
  simp only [List.all_cons, howner, Bool.true_and, List.all_map, List.all_eq_true]
  exact fun w hw => isIdentifier_identifier (hparts w hw)

/-! ## References -/

/-- The tree of a reference, which is a path or a field. -/
def referenceTree : Code.Expr → Python.Tree
  | .path ids => .path ids
  | .field owner param field => Code.fieldTree owner param field
  | e => .path [e.text]

/-- A path of identifiers, or a field of the parameter that such a path looks up. -/
inductive IsReference : Code.Expr → Prop where
  | path {ids : List Bytes} (h : IsPath ids) : IsReference (.path ids)
  | field {owner : List Bytes} {param name : Bytes} (howner : IsPath owner) (hparam : IsPart param) (hname : IsPart name)
      (hstart : isField name = true) : IsReference (.field owner param name)

/-- A reference is printed as its tree. -/
theorem IsReference.prints {e : Code.Expr} (h : IsReference e) : Prints operandLevel e.text (referenceTree e) := by
  cases h with
  | path hids => exact Code.prints_path hids
  | @field owner param name howner hparam hname hstart =>
    have hfree : ∀ k ∈ Code.keywords, isField k = false := by decide
    refine Code.prints_field howner hparam.isWordByte ⟨hname.start, hname.isWordByte, fun hmem => ?_⟩ hname.undotted
    rw [hfree name hmem] at hstart
    cases hstart

theorem isReference_under {owner : Bytes} (howner : isIdentifier owner = true) {parts : List Bytes}
    (hparts : ∀ w ∈ parts, IsPart w) : IsReference (under owner parts) :=
  .path (isPath_under howner hparts)

theorem isReference_declaredName {parts : List Bytes} (hparts : ∀ w ∈ parts, IsPart w) :
    IsReference (Context.declaredName parts) := by
  unfold Context.declaredName
  split
  · next name field =>
    split
    · next hfield => exact .field ⟨by simp, by decide⟩ (hparts name (by simp)) (hparts field (by simp)) hfield
    · exact isReference_under (by decide) hparts
  · exact isReference_under (by decide) hparts

theorem isReference_freeName {c : Context} (hc : isIdentifier c.handle = true) {parts : List Bytes}
    (hparts : ∀ w ∈ parts, IsPart w) : IsReference (c.freeName parts) := by
  have hmem : ∀ w ∈ parts.reverse, IsPart w := fun w hw => hparts w (List.mem_reverse.mp hw)
  unfold Context.freeName
  split
  · next name hrev =>
    rw [hrev] at hmem
    split
    · next heof =>
      rw [heof]
      exact .path ⟨by simp, by decide⟩
    · exact isReference_under hc (by simpa using hmem)
  · next field param hrev =>
    rw [hrev] at hmem
    split
    · next hfield =>
      exact .field ⟨by simp, by simpa using hc⟩ (hmem param (by simp)) (hmem field (by simp)) hfield
    · exact isReference_under (by decide) hparts
  · next field param owner _ hrev =>
    rw [hrev] at hmem
    split
    · next hfield =>
      have howner : ∀ w ∈ owner.reverse, IsPart w := fun w hw => hmem w (by simp [List.mem_reverse.mp hw])
      exact .field (isPath_under (by decide) howner) (hmem param (by simp)) (hmem field (by simp)) hfield
    · exact isReference_under (by decide) hparts
  · exact isReference_under (by decide) hparts

theorem isIdentifier_handle (scope : Scope) (mode : Bytes) : isIdentifier (Context.of scope mode).handle = true := by
  unfold Context.of
  dsimp only
  split <;> decide

theorem isReference_reference {c : Context} (hc : isIdentifier c.handle = true) {path : Bytes}
    (h : Lexicon.name.Matches path) : IsReference (c.reference path) := by
  have hparts := parts_of_matches h
  unfold Context.reference
  dsimp only
  split
  · exact isReference_declaredName hparts
  · exact isReference_freeName hc hparts

theorem isReference_array {c : Context} (hc : isIdentifier c.handle = true) {path : Bytes}
    (h : Lexicon.name.Matches path) : IsReference (c.array path) := by
  have hparts := parts_of_matches h
  unfold Context.array
  dsimp only
  split
  · exact isReference_under (by decide) hparts
  · exact isReference_freeName hc hparts

/-- A name is printed as a reference. -/
theorem prints_reference {c : Context} (hc : isIdentifier c.handle = true) {path : Bytes}
    (h : Lexicon.name.Matches path) : Prints operandLevel (c.reference path).text (referenceTree (c.reference path)) :=
  (isReference_reference hc h).prints

/-- The array that a name stands for is printed as a reference. -/
theorem prints_array {c : Context} (hc : isIdentifier c.handle = true) {path : Bytes} (h : Lexicon.name.Matches path) :
    Prints operandLevel (c.array path).text (referenceTree (c.array path)) :=
  (isReference_array hc h).prints

/-- The function of a name is a path. -/
theorem isPath_functionPath {name : Bytes} (h : Lexicon.name.Matches name) : IsPath (functionPath name) :=
  isPath_under (by decide) (parts_of_matches h)

end IrafCl.Script
