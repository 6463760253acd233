import IrafCl.Proofs.Cache.Entry

/-!
# Writing and reading entries

An entry whose texts are UTF-8 and whose lists are no longer than the reader takes is read back from its
stored form, and written again it has the same stored form (`Entry.decode_encode`). Reading an item gives
its normal form, which is encoded like the item itself (`Cbor.encode_normal`), and the item of a normal
entry is the normal form of the entry's item, so nothing has to be compared byte by byte. How deep an
entry nests is fixed by its type; what the reader can refuse is the length of a list.
-/

namespace IrafCl

/-! ## Normal forms are written alike -/

namespace Cbor

theorem floatBytes_normalFloat (x : Binary64) : floatBytes (normalFloat x) = floatBytes x := by
  unfold normalFloat
  split
  · next hnan =>
    have hnan' : Binary64.nan.isNaN = true := by decide
    rw [floatBytes, floatBytes, if_pos hnan', if_pos hnan]
  · rfl

mutual

/-- The normal form of an item is encoded like the item. -/
theorem encode_normal : ∀ x : Cbor, x.normal.encode = x.encode
  | .bytes chunks => by simp only [normal, encode, List.flatten_singleton]
  | .text chunks => by simp only [normal, encode, List.flatten_singleton]
  | .array items => by
    have hlength : (normalAll items).length = items.length := by rw [normalAll_eq_map, List.length_map]
    rw [normal, encode, encode, encodeAll_normalAll, hlength]
  | .map pairs => by rw [normal, encode, encode, encodePairs_normalPairs, length_normalPairs]
  | .tag number item => by rw [normal, encode, encode, encode_normal item]
  | .float x => by rw [normal, encode, encode, floatBytes_normalFloat]
  | .unsigned _ => rfl
  | .negative _ => rfl
  | .simple _ => rfl
  | .bool _ => rfl
  | .null => rfl

theorem encodeAll_normalAll : ∀ xs : List Cbor, encodeAll (normalAll xs) = encodeAll xs
  | [] => rfl
  | x :: xs => by rw [normalAll, encodeAll, encodeAll, encode_normal x, encodeAll_normalAll xs]

theorem encodePairs_normalPairs : ∀ ps : List CborPair, encodePairs (normalPairs ps) = encodePairs ps
  | [] => rfl
  | .mk k v :: ps => by
    rw [normalPairs, encodePairs, encodePairs, encode_normal k, encode_normal v, encodePairs_normalPairs ps]

end

end Cbor

theorem Value.toCbor_normal (v : Value) : v.normal.toCbor = v.toCbor.normal := by
  have hzero : Cbor.normalFloat .zero = .zero := by decide
  unfold Value.toCbor
  rw [Cbor.normal_ofFields]
  cases v <;> simp [Value.normal, Cbor.normal, Cbor.normal_ofText, Cbor.normal_ofInt, Value.kindNumber, hzero]

theorem Options.toCbor_normal (o : Options) : o.normal.toCbor = o.toCbor.normal := by
  unfold Options.toCbor
  rw [Cbor.normal_ofFields]
  simp only [List.map_cons, List.map_nil, Cbor.normal_ofText, Cbor.normal_ofInt, ← Value.toCbor_normal]
  rfl

theorem Variable.toCbor_normal (v : Variable) : v.normal.toCbor = v.toCbor.normal := by
  unfold Variable.toCbor
  rw [Cbor.normal_ofFields]
  cases hinitial : v.initial with
  | none =>
    simp only [List.map_cons, List.map_nil, Cbor.normal_ofText, Cbor.normal_ofInt, ← Options.toCbor_normal]
    simp only [Variable.normal, hinitial, Option.map_none, Cbor.normal]
  | some vs =>
    simp only [List.map_cons, List.map_nil, Cbor.normal_ofText, Cbor.normal_ofInt, ← Options.toCbor_normal]
    simp only [Variable.normal, hinitial, Option.map_some, Cbor.normal, Cbor.normalAll_eq_map, List.map_map,
      Function.comp_def, Value.toCbor_normal]

theorem Entry.toCbor_normal (e : Entry) : e.normal.toCbor = e.toCbor.normal := by
  rw [Entry.normal_toCbor]
  unfold Entry.toCbor Entry.pairs Entry.normal
  simp only [List.map_map, Function.comp_def, Variable.toCbor_normal, Cbor.normal_ofText, List.append_assoc,
    List.cons_append, List.nil_append, List.append_nil]

/-! ## Lengths of lists -/

namespace Cbor

/-- Whether a list is no longer than the reader takes. -/
def isShort {α : Type} (as : List α) : Bool := as.length ≤ maxMembers

theorem allFit_map {α : Type} (write : α → Cbor) (as : List α) (depth : Nat) :
    allFit (as.map write) depth = as.all fun a => (write a).fits depth := by
  induction as with
  | nil => rfl
  | cons a as ih => rw [List.map_cons, allFit, ih, List.all_cons]

theorem pairsFit_append (ps qs : List CborPair) (depth : Nat) :
    pairsFit (ps ++ qs) depth = (pairsFit ps depth && pairsFit qs depth) := by
  induction ps with
  | nil => rfl
  | cons p ps ih =>
    obtain ⟨k, v⟩ := p
    simp only [List.cons_append, pairsFit, ih, Bool.and_assoc]

theorem fits_ofText (s : Bytes) (depth : Nat) : (ofText s).fits depth = true := by
  rw [ofText, fits]

theorem fits_ofInt (n : Int) (depth : Nat) : (ofInt n).fits depth = true := by
  cases n <;> rw [ofInt, fits]

end Cbor

/-- Whether the lists of an entry are no longer than the reader takes. -/
def Entry.isShort (e : Entry) : Bool :=
  Cbor.isShort e.warnings && Cbor.isShort e.params && Cbor.isShort e.locals &&
    (e.params ++ e.locals).all fun v => Cbor.isShort v.values

theorem Value.fits_toCbor (v : Value) (depth : Nat) : v.toCbor.fits (depth + 1) = true := by
  unfold Value.toCbor Cbor.ofFields
  simp [Cbor.fits, Cbor.pairsFit, Cbor.fits_ofText, Cbor.fits_ofInt, Cbor.maxMembers]

theorem Options.fits_toCbor (o : Options) (depth : Nat) : o.toCbor.fits (depth + 2) = true := by
  unfold Options.toCbor Cbor.ofFields
  simp [Cbor.fits, Cbor.pairsFit, Cbor.fits_ofText, Cbor.fits_ofInt, Cbor.maxMembers, Value.fits_toCbor]

theorem Variable.fits_toCbor (v : Variable) (depth : Nat) :
    v.toCbor.fits (depth + 3) = Cbor.isShort v.values := by
  have hvalues (vs : List Value) : Cbor.allFit (vs.map Value.toCbor) (depth + 1) = true := by
    rw [Cbor.allFit_map, List.all_eq_true]
    exact fun w _ => w.fits_toCbor depth
  have hlength : 7 ≤ Cbor.maxMembers := by decide
  unfold Variable.toCbor Cbor.ofFields Variable.values
  cases v.initial with
  | none => simp [Cbor.fits, Cbor.pairsFit, Cbor.fits_ofText, Cbor.fits_ofInt, Options.fits_toCbor, Cbor.isShort, hlength]
  | some vs =>
    simp [Cbor.fits, Cbor.pairsFit, Cbor.fits_ofText, Cbor.fits_ofInt, Options.fits_toCbor, Cbor.isShort, hlength, hvalues]

namespace Entry

theorem pairsFit_listMember (n : Nat) (items : List Cbor) (depth : Nat) :
    Cbor.pairsFit (listMember n items) (depth + 1) = (Cbor.isShort items && Cbor.allFit items depth) := by
  cases items <;> simp [listMember, Cbor.pairsFit, Cbor.fits, Cbor.allFit, Cbor.isShort]

/-- The item of an entry never nests too deep, so it fits if its lists are short. -/
theorem fits_toCbor (e : Entry) : e.toCbor.fits Cbor.maxDepth = e.isShort := by
  have htexts : Cbor.allFit (e.warnings.map Cbor.ofText) 30 = true := by
    rw [Cbor.allFit_map, List.all_eq_true]
    exact fun w _ => Cbor.fits_ofText w 30
  have hvariables (vs : List Variable) :
      Cbor.allFit (vs.map Variable.toCbor) 30 = vs.all fun v => Cbor.isShort v.values := by
    rw [Cbor.allFit_map]
    exact congrArg _ (funext fun v => v.fits_toCbor 27)
  have hshort {α β : Type} (f : α → β) (as : List α) : Cbor.isShort (as.map f) = Cbor.isShort as := by
    rw [Cbor.isShort, Cbor.isShort, List.length_map]
  have hmember (n : Nat) (items : List Cbor) : (listMember n items).length ≤ 1 := by
    unfold listMember
    split <;> simp
  have hwarnings := hmember 6 (e.warnings.map Cbor.ofText)
  have hparams := hmember 7 (e.params.map Variable.toCbor)
  have hlocals := hmember 8 (e.locals.map Variable.toCbor)
  rw [toCbor, show Cbor.maxDepth = 31 + 1 from rfl, Cbor.fits]
  simp only [Cbor.pairsFit_append, pairsFit_listMember, htexts, hvariables, hshort, List.length_append]
  have hlength : 5 + (listMember 6 (e.warnings.map Cbor.ofText)).length +
      (listMember 7 (e.params.map Variable.toCbor)).length +
      (listMember 8 (e.locals.map Variable.toCbor)).length ≤ Cbor.maxMembers := by
    rw [Cbor.maxMembers]
    omega
  have hscalars : Cbor.pairsFit [.mk (.unsigned 1) (.ofText Version.current), .mk (.unsigned 2) (.ofText e.code),
      .mk (.unsigned 3) (.ofText e.filename), .mk (.unsigned 4) (.ofText e.procedure),
      .mk (.unsigned 5) (.bool e.isProcedure)] 31 = true := rfl
  rw [hscalars, isShort, List.all_append, List.length_cons, List.length_cons, List.length_cons, List.length_cons,
    List.length_cons, List.length_nil, decide_eq_true hlength, Bool.true_and, Bool.true_and, Bool.and_true]
  ac_rfl

/-- An entry with short lists and UTF-8 texts is read back from its stored form, and what is read is stored
in the same form again. -/
theorem decode_encode {e : Entry} (hshort : e.isShort = true) (hutf8 : e.isUtf8 = true)
    (hlen : e.encode.length < Nat.pow 2 64) :
    decode e.encode = .ok e.normal ∧ e.normal.encode = e.encode := by
  constructor
  · have hreadable : e.isReadable = true := by rw [isReadable, fits_toCbor, hshort, hutf8, Bool.and_self]
    have hdecode := toOption_decode_encode hlen
    rw [if_pos hreadable] at hdecode
    cases h : decode e.encode with
    | ok e' =>
      rw [h] at hdecode
      exact congrArg Except.ok (Option.some.inj hdecode)
    | error f =>
      rw [h] at hdecode
      cases hdecode
  · rw [encode, toCbor_normal, Cbor.encode_normal, encode]

/-- A NaN with a payload is read as the NaN, and a variable without initial values is told apart from one
with an empty list of them. -/
theorem decode_encode_nan :
    let entry (x : Binary64) : Entry := ⟨"pass", "a.cl", "p", true, ["w"],
      [⟨"x", "real", "h", 0, some [.float x, .int Int64.minValue, .string "s", .bool true, .undefined], false, .empty⟩],
      [.scalar "y" "int" [], ⟨"z", "int", [], 2, some [], true, .empty⟩]⟩
    let e := entry ⟨0x7FF8000000000123⟩
    e.encode.length < Nat.pow 2 64 ∧ decode e.encode = .ok (entry .nan) ∧ (entry .nan).encode = e.encode := by
  intro entry e
  have hlen : e.encode.length < Nat.pow 2 64 := by decide +kernel
  obtain ⟨hdecode, hencode⟩ := decode_encode (e := e) (by decide) (by decide) hlen
  exact ⟨hlen, hdecode, hencode⟩

end Entry

end IrafCl
