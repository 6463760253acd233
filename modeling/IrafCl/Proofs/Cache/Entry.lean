import IrafCl.Cache.Entry
import IrafCl.Proofs.Cbor.Reader

/-!
# Stored entries are read back

A stored entry is read back with every member it was written with, if all its texts are UTF-8; otherwise it is refused
(`ofCbor?_toCbor`). Only which NaN a number was is forgotten (`Entry.normal`).
-/

namespace IrafCl

/-! ## What is kept -/

/-- A value of which no more is kept than that it is a NaN. -/
def Value.normal : Value → Value
  | .float x => .float (Cbor.normalFloat x)
  | v => v

def Options.normal (o : Options) : Options := { o with min := o.min.normal, max := o.max.normal }

def Variable.normal (v : Variable) : Variable :=
  { v with initial := v.initial.map (·.map Value.normal), options := v.options.normal }

def Entry.normal (e : Entry) : Entry :=
  { e with params := e.params.map Variable.normal, locals := e.locals.map Variable.normal }

def Value.isUtf8 : Value → Bool
  | .string s => s.isUtf8
  | _ => true

def Options.isUtf8 (o : Options) : Bool :=
  o.min.isUtf8 && o.max.isUtf8 && o.prompt.isUtf8 && o.choices.isUtf8

def Variable.isUtf8 (v : Variable) : Bool :=
  v.name.isUtf8 && v.type.isUtf8 && v.mode.isUtf8 && v.values.all Value.isUtf8 && v.options.isUtf8

/-- Whether all texts of an entry are UTF-8. -/
def Entry.isUtf8 (e : Entry) : Bool :=
  e.code.isUtf8 && e.filename.isUtf8 && e.procedure.isUtf8 && e.warnings.all Bytes.isUtf8 &&
    e.params.all Variable.isUtf8 && e.locals.all Variable.isUtf8

/-! ## Members -/

namespace Cbor

theorem normal_ofText (s : Bytes) : (ofText s).normal = ofText s := by
  simp [ofText, normal]

theorem normal_ofInt (n : Int) : (ofInt n).normal = ofInt n := by
  cases n <;> rfl

theorem normal_ofFields (fields : List (Bytes × Cbor)) :
    (ofFields fields).normal = ofFields (fields.map fun f => (f.1, f.2.normal)) := by
  unfold ofFields
  rw [normal]
  congr 1
  induction fields with
  | nil => rfl
  | cons f fields ih => simp only [List.map_cons, normalPairs, normal_ofText, ih]

section
variable {α : Type} {name : Bytes} {number : Option Nat} {k v : Cbor} {pairs : List CborPair} {empty : α}
  {read : Cbor → Option α}

theorem readMember_skip (hk : names name number k = false) :
    readMember (.mk k v :: pairs) name number empty read = readMember pairs name number empty read := by
  simp [readMember, member?, hk]

theorem readMember_found (hk : names name number k = true) (hv : v ≠ .null) :
    readMember (.mk k v :: pairs) name number empty read = read v := by
  cases v <;> first | exact absurd rfl hv | simp [readMember, member?, hk]

theorem readMember_null (hk : names name number k = true) :
    readMember (.mk k .null :: pairs) name number empty read = some empty := by
  simp [readMember, member?, hk]

end

theorem asText?_ofText (s : Bytes) : asText? (ofText s) = if s.isUtf8 then some s else none := by
  simp [ofText, asText?]

theorem asInt?_ofInt (n : Int64) : asInt? (ofInt n.toInt) = some n := by
  have hlt := n.toInt_lt
  have hle := n.le_toInt
  have hn : Int64.ofInt n.toInt = n := Int64.ofInt_toInt n
  cases h : n.toInt with
  | ofNat k =>
    rw [h, Int.ofNat_eq_natCast] at hn hlt
    simp only [ofInt, asInt?]
    rw [if_pos (by simp only [Nat.pow_eq]; omega), hn]
  | negSucc k =>
    rw [h] at hn hle
    simp only [ofInt, asInt?]
    have hneg : -1 - (k : Int) = Int.negSucc k := by omega
    rw [if_pos (by simp only [Nat.pow_eq]; omega), hneg, hn]

theorem ofInt_ne_null (n : Int) : ofInt n ≠ .null := by cases n <;> nofun

theorem ofText_ne_null (s : Bytes) : ofText s ≠ .null := nofun

end Cbor

/-! ## Values -/

/-- The members of a value are read, if its text is UTF-8. -/
theorem Value.ofCbor?_fields (int : Int64) (text : Bytes) (bool : Bool) {kind : Nat} (hkind : kind < Nat.pow 2 63)
    (float : Binary64) :
    Value.ofCbor? (.ofFields [("Int", .ofInt int.toInt), ("Str", .ofText text), ("Bool", .bool bool),
      ("Kind", .unsigned kind), ("Float", .float float)]) =
    if text.isUtf8 then some (.ofKind (Int64.ofInt kind) int float text bool) else Option.none := by
  have hmembers : (Cbor.ofFields [("Int", .ofInt int.toInt), ("Str", .ofText text), ("Bool", .bool bool),
      ("Kind", .unsigned kind), ("Float", .float float)]).members? =
    some [.mk (.ofText "Int") (.ofInt int.toInt), .mk (.ofText "Str") (.ofText text), .mk (.ofText "Bool") (.bool bool),
      .mk (.ofText "Kind") (.unsigned kind), .mk (.ofText "Float") (.float float)] := rfl
  have hint := Cbor.ofInt_ne_null int.toInt
  have htext := Cbor.ofText_ne_null text
  have hbool : Cbor.bool bool ≠ .null := nofun
  have hunsigned : Cbor.unsigned kind ≠ .null := nofun
  have hfloat : Cbor.float float ≠ .null := nofun
  rw [Value.ofCbor?.eq_2 (.ofFields _) (by intro h; cases h), hmembers]
  simp (disch := first | decide | assumption) only [Cbor.named, Cbor.readMember_skip,
    Cbor.readMember_found, Option.bind_eq_bind, Option.bind_some, Cbor.asInt?_ofInt, Cbor.asText?_ofText]
  simp only [Cbor.asInt?, hkind, if_true, Cbor.asFloat?, Cbor.asBool?, Option.bind_some]
  cases text.isUtf8 <;> rfl

theorem Value.ofCbor?_toCbor (v : Value) :
    Value.ofCbor? v.toCbor.normal = if v.isUtf8 then some v.normal else Option.none := by
  have hkind : v.kindNumber < Nat.pow 2 63 := by cases v <;> simp [Value.kindNumber]
  unfold Value.toCbor
  rw [Cbor.normal_ofFields]
  simp only [List.map_cons, List.map_nil, Cbor.normal_ofText, Cbor.normal_ofInt, Cbor.normal]
  rw [Value.ofCbor?_fields _ _ _ hkind]
  cases v <;> rfl

/-- A list of things is read back, if each of them is. -/
theorem Cbor.asList?_normal {α β : Type} {write : α → Cbor} {read : Cbor → Option β} {ok : α → Bool} {kept : α → β}
    (h : ∀ a, read (write a).normal = if ok a then some (kept a) else none) (as : List α) :
    asList? read (Cbor.array (as.map write)).normal = if as.all ok then some (as.map kept) else none := by
  rw [normal, asList?, normalAll_eq_map]
  induction as with
  | nil => rfl
  | cons a as ih =>
    simp only [List.map_cons, List.mapM_cons, h, ih, List.all_cons]
    cases ok a <;> cases as.all ok <;> rfl

/-! ## Variables -/

theorem Options.ofCbor?_toCbor (o : Options) :
    Options.ofCbor? o.toCbor.normal = if o.isUtf8 then some o.normal else none := by
  have hvalue (v : Value) : v.toCbor.normal ≠ .null := by
    unfold Value.toCbor
    rw [Cbor.normal_ofFields]
    nofun
  have hmin := hvalue o.min
  have hmax := hvalue o.max
  have hprompt := Cbor.ofText_ne_null o.prompt
  have hchoices := Cbor.ofText_ne_null o.choices
  have hlength := Cbor.ofInt_ne_null o.length.toInt
  have hnormal : o.toCbor.normal = .map [.mk (.ofText "Max") o.max.toCbor.normal, .mk (.ofText "Min") o.min.toCbor.normal,
      .mk (.ofText "Enum") (.ofText o.choices), .mk (.ofText "Length") (.ofInt o.length.toInt),
      .mk (.ofText "Prompt") (.ofText o.prompt)] := by
    unfold Options.toCbor
    rw [Cbor.normal_ofFields]
    simp only [List.map_cons, List.map_nil, Cbor.normal_ofText, Cbor.normal_ofInt]
    rfl
  have hmembers : o.toCbor.normal.members? = some [.mk (.ofText "Max") o.max.toCbor.normal,
      .mk (.ofText "Min") o.min.toCbor.normal, .mk (.ofText "Enum") (.ofText o.choices),
      .mk (.ofText "Length") (.ofInt o.length.toInt), .mk (.ofText "Prompt") (.ofText o.prompt)] := by
    rw [hnormal]
    rfl
  rw [Options.ofCbor?, hmembers]
  simp (disch := first | decide | assumption) only [Cbor.named, Cbor.readMember_skip, Cbor.readMember_found,
    Option.bind_eq_bind, Option.bind_some, Cbor.asInt?_ofInt, Cbor.asText?_ofText, Value.ofCbor?_toCbor]
  unfold Options.isUtf8
  cases o.min.isUtf8 <;> cases o.max.isUtf8 <;> cases o.prompt.isUtf8 <;> cases o.choices.isUtf8 <;> rfl

/-- The stored form of initial values. -/
def initialCbor : Option (List Value) → Cbor
  | some vs => .array (vs.map Value.toCbor)
  | none => .null

/-- Initial values are read back, also where there is no list of them. -/
theorem readMember_initialCbor (initial : Option (List Value)) (pairs : List CborPair) :
    Cbor.readMember (.mk (.ofText "Init") (initialCbor initial).normal :: pairs) "Init" none none
      (fun v => (Cbor.asList? Value.ofCbor? v).map some) =
    if (initial.getD []).all Value.isUtf8 then some (initial.map (·.map Value.normal)) else none := by
  cases initial with
  | none =>
    rw [initialCbor, Cbor.normal, Cbor.readMember_null (by decide)]
    rfl
  | some vs =>
    have harray : (Cbor.array (vs.map Value.toCbor)).normal ≠ .null := by
      rw [Cbor.normal]
      nofun
    rw [initialCbor, Cbor.readMember_found (by decide) harray,
      Cbor.asList?_normal Value.ofCbor?_toCbor, Cbor.map_ite]
    rfl

theorem Variable.ofCbor?_toCbor (v : Variable) :
    Variable.ofCbor? v.toCbor.normal = if v.isUtf8 then some v.normal else none := by
  have hlist : Cbor.bool v.isList ≠ .null := nofun
  have hmode := Cbor.ofText_ne_null v.mode
  have hname := Cbor.ofText_ne_null v.name
  have htype := Cbor.ofText_ne_null v.type
  have hsize := Cbor.ofInt_ne_null v.arraySize.toInt
  have hoptions : v.options.toCbor.normal ≠ .null := by
    unfold Options.toCbor
    rw [Cbor.normal_ofFields]
    nofun
  have hnormal : v.toCbor.normal = .map [.mk (.ofText "Init") (initialCbor v.initial).normal,
      .mk (.ofText "List") (.bool v.isList), .mk (.ofText "Mode") (.ofText v.mode), .mk (.ofText "Name") (.ofText v.name),
      .mk (.ofText "Type") (.ofText v.type), .mk (.ofText "Options") v.options.toCbor.normal,
      .mk (.ofText "ArraySize") (.ofInt v.arraySize.toInt)] := by
    unfold Variable.toCbor
    rw [Cbor.normal_ofFields]
    simp only [List.map_cons, List.map_nil, Cbor.normal_ofText, Cbor.normal_ofInt]
    cases v.initial <;> rfl
  have hmembers : v.toCbor.normal.members? = some [.mk (.ofText "Init") (initialCbor v.initial).normal,
      .mk (.ofText "List") (.bool v.isList), .mk (.ofText "Mode") (.ofText v.mode), .mk (.ofText "Name") (.ofText v.name),
      .mk (.ofText "Type") (.ofText v.type), .mk (.ofText "Options") v.options.toCbor.normal,
      .mk (.ofText "ArraySize") (.ofInt v.arraySize.toInt)] := by
    rw [hnormal]
    rfl
  have hne : v.toCbor.normal ≠ .null := by
    rw [hnormal]
    nofun
  rw [Variable.ofCbor?.eq_2 _ hne, hmembers]
  simp only [Cbor.named, Option.bind_eq_bind, Option.bind_some, readMember_initialCbor]
  simp (disch := first | decide | assumption) only [Cbor.readMember_skip, Cbor.readMember_found,
    Cbor.asInt?_ofInt, Cbor.asText?_ofText, Cbor.asBool?, Options.ofCbor?_toCbor, Option.bind_some]
  unfold Variable.isUtf8 Variable.values
  cases v.name.isUtf8 <;> cases v.type.isUtf8 <;> cases v.mode.isUtf8 <;> cases (v.initial.getD []).all Value.isUtf8 <;>
    cases v.options.isUtf8 <;> rfl

/-! ## Entries -/

namespace Entry

/-- The pairs of an entry. -/
def pairs (e : Entry) : List CborPair :=
  .mk (.unsigned 1) (.ofText Version.current) :: .mk (.unsigned 2) (.ofText e.code) ::
    .mk (.unsigned 3) (.ofText e.filename) :: .mk (.unsigned 4) (.ofText e.procedure) ::
    .mk (.unsigned 5) (.bool e.isProcedure) ::
    (listMember 6 (e.warnings.map fun w => (Cbor.ofText w).normal) ++
      (listMember 7 (e.params.map fun v => v.toCbor.normal) ++ (listMember 8 (e.locals.map fun v => v.toCbor.normal) ++ [])))

theorem normalPairs_append (ps qs : List CborPair) : Cbor.normalPairs (ps ++ qs) = Cbor.normalPairs ps ++ Cbor.normalPairs qs := by
  induction ps with
  | nil => rfl
  | cons p ps ih =>
    obtain ⟨k, v⟩ := p
    rw [List.cons_append, Cbor.normalPairs, ih, Cbor.normalPairs, List.cons_append]

theorem normalPairs_listMember (n : Nat) (items : List Cbor) :
    Cbor.normalPairs (listMember n items) = listMember n (items.map Cbor.normal) := by
  unfold listMember
  cases items with
  | nil => rfl
  | cons x xs => simp [Cbor.normalPairs, Cbor.normal, Cbor.normalAll_eq_map]

theorem normal_toCbor (e : Entry) : e.toCbor.normal = .map e.pairs := by
  unfold toCbor
  rw [Cbor.normal]
  simp only [normalPairs_append, normalPairs_listMember, Cbor.normalPairs, Cbor.normal_ofText, List.map_map,
    List.append_assoc, List.cons_append, List.nil_append]
  unfold pairs
  rw [List.append_nil]
  rfl

theorem members?_pairs (e : Entry) : (Cbor.map e.pairs).members? = some e.pairs := by
  have hmember : ∀ n items, ∀ p ∈ listMember n items, ∃ k v, p = .mk (.unsigned k) v := by
    intro n items p hp
    unfold listMember at hp
    split at hp
    · cases hp
    · exact ⟨n, .array items, List.mem_singleton.mp hp⟩
  have hall : ∀ p ∈ e.pairs, ∃ k v, p = .mk (.unsigned k) v := by
    intro p hp
    simp only [pairs, List.mem_cons, List.mem_append, List.not_mem_nil, or_false] at hp
    rcases hp with rfl | rfl | rfl | rfl | rfl | hp | hp | hp
    · exact ⟨_, _, rfl⟩
    · exact ⟨_, _, rfl⟩
    · exact ⟨_, _, rfl⟩
    · exact ⟨_, _, rfl⟩
    · exact ⟨_, _, rfl⟩
    all_goals exact hmember _ _ p hp
  rw [Cbor.members?, if_pos]
  rw [List.all_eq_true]
  intro p hp
  obtain ⟨k, v, rfl⟩ := hall p hp
  rfl

/-- A list under another number is passed over. -/
theorem readMember_other {α : Type} {name : Bytes} {n k : Nat} {items : List Cbor} {rest : List CborPair} {empty : α}
    {read : Cbor → Option α} (h : n ≠ k) :
    Cbor.readMember (listMember k items ++ rest) name (some n) empty read = Cbor.readMember rest name (some n) empty read := by
  unfold listMember
  split
  · rfl
  · exact Cbor.readMember_skip (by simp [Cbor.names, h])

/-- A list under its number is read back, also where it is left out because it is empty. -/
theorem readMember_own {α β : Type} {write : α → Cbor} {read : Cbor → Option β} {ok : α → Bool} {kept : α → β}
    (h : ∀ a, read (write a).normal = if ok a then some (kept a) else none) (name : Bytes) (n : Nat) (as : List α)
    (rest : List CborPair) (hrest : Cbor.readMember rest name (some n) [] (Cbor.asList? read) = some []) :
    Cbor.readMember (listMember n (as.map fun a => (write a).normal) ++ rest) name (some n) [] (Cbor.asList? read) =
      if as.all ok then some (as.map kept) else none := by
  cases as with
  | nil => exact hrest
  | cons a as =>
    have hlist := Cbor.asList?_normal h (a :: as)
    have hitems : (Cbor.array ((a :: as).map write)).normal = .array ((a :: as).map fun a => (write a).normal) := by
      rw [Cbor.normal, Cbor.normalAll_eq_map, List.map_map]
      rfl
    rw [hitems] at hlist
    rw [← hlist]
    exact Cbor.readMember_found (by simp [Cbor.names]) nofun

/-- A stored entry is read back with its version, if all its texts are UTF-8. -/
theorem ofCbor?_toCbor (e : Entry) :
    ofCbor? e.toCbor.normal = if e.isUtf8 then some (Version.current, e.normal) else none := by
  have htext : ∀ w, Cbor.asText? (Cbor.ofText w).normal = if Bytes.isUtf8 w then some w else none := by
    intro w
    rw [Cbor.normal_ofText, Cbor.asText?_ofText]
  have hlocals := readMember_own Variable.ofCbor?_toCbor (Bytes.ofNat 8) 8 e.locals [] rfl
  have hparams := readMember_own Variable.ofCbor?_toCbor (Bytes.ofNat 7) 7 e.params
    (listMember 8 (e.locals.map fun v => v.toCbor.normal) ++ []) (readMember_other (by decide))
  have hwarnings := readMember_own htext (Bytes.ofNat 6) 6 e.warnings
    (listMember 7 (e.params.map fun v => v.toCbor.normal) ++ (listMember 8 (e.locals.map fun v => v.toCbor.normal) ++ []))
    ((readMember_other (by decide)).trans (readMember_other (by decide)))
  have hversion := Cbor.ofText_ne_null Version.current
  have hcode := Cbor.ofText_ne_null e.code
  have hfilename := Cbor.ofText_ne_null e.filename
  have hprocedure := Cbor.ofText_ne_null e.procedure
  have hproc : Cbor.bool e.isProcedure ≠ .null := nofun
  have hcurrent : Version.current.isUtf8 = true := by decide
  rw [normal_toCbor, ofCbor?, members?_pairs]
  · simp only [numbered, pairs, Option.bind_eq_bind, Option.bind_some]
    simp (disch := first | decide | assumption) only [Cbor.readMember_skip, Cbor.readMember_found, readMember_other,
      hwarnings, hparams, hlocals, Cbor.asText?_ofText, Cbor.asBool?, Option.bind_some, hcurrent]
    unfold isUtf8
    cases e.code.isUtf8 <;> cases e.filename.isUtf8 <;> cases e.procedure.isUtf8 <;> cases e.warnings.all Bytes.isUtf8 <;>
      cases e.params.all Variable.isUtf8 <;> cases e.locals.all Variable.isUtf8 <;> simp [normal]
  · nofun

end Entry

/-! ## Numbers in entries -/

namespace Cbor

theorem bounded_ofInt (n : Int64) : (ofInt n.toInt).Bounded := by
  have hlt := n.toInt_lt
  have hle := n.le_toInt
  cases h : n.toInt with
  | ofNat k =>
    rw [h, Int.ofNat_eq_natCast] at hlt
    simp only [ofInt, Bounded, Nat.pow_eq]
    omega
  | negSucc k =>
    rw [h] at hle
    simp only [ofInt, Bounded, Nat.pow_eq]
    omega

theorem allBounded_iff (xs : List Cbor) : AllBounded xs ↔ ∀ x ∈ xs, x.Bounded := by
  induction xs with
  | nil => simp [AllBounded]
  | cons x xs ih => simp [AllBounded, ih]

theorem pairsBounded_iff (ps : List CborPair) : PairsBounded ps ↔ ∀ k v, .mk k v ∈ ps → k.Bounded ∧ v.Bounded := by
  induction ps with
  | nil => simp [PairsBounded]
  | cons p ps ih =>
    obtain ⟨k, v⟩ := p
    simp only [PairsBounded, ih, List.mem_cons, CborPair.mk.injEq]
    constructor
    · rintro ⟨hk, hv, hps⟩ k' v' (⟨rfl, rfl⟩ | hmem)
      · exact ⟨hk, hv⟩
      · exact hps k' v' hmem
    · intro h
      have hhead := h k v (.inl ⟨rfl, rfl⟩)
      exact ⟨hhead.1, hhead.2, fun k' v' hmem => h k' v' (.inr hmem)⟩

theorem bounded_ofFields {fields : List (Bytes × Cbor)} (h : ∀ f ∈ fields, f.2.Bounded) : (ofFields fields).Bounded := by
  unfold ofFields
  rw [Bounded, pairsBounded_iff]
  intro k v hmem
  obtain ⟨f, hf, heq⟩ := List.mem_map.mp hmem
  cases heq
  exact ⟨trivial, h f hf⟩

theorem bounded_array {α : Type} {write : α → Cbor} (h : ∀ a, (write a).Bounded) (as : List α) :
    (Cbor.array (as.map write)).Bounded := by
  rw [Bounded, allBounded_iff]
  intro x hx
  obtain ⟨a, _, rfl⟩ := List.mem_map.mp hx
  exact h a

end Cbor

theorem Value.bounded_toCbor (v : Value) : v.toCbor.Bounded := by
  refine Cbor.bounded_ofFields ?_
  simp only [List.forall_mem_cons]
  refine ⟨Cbor.bounded_ofInt _, trivial, trivial, ?_, trivial, nofun⟩
  cases v <;> simp [Cbor.Bounded, Value.kindNumber]

theorem Options.bounded_toCbor (o : Options) : o.toCbor.Bounded := by
  refine Cbor.bounded_ofFields ?_
  simp only [List.forall_mem_cons]
  exact ⟨o.max.bounded_toCbor, o.min.bounded_toCbor, trivial, Cbor.bounded_ofInt _, trivial, nofun⟩

theorem Variable.bounded_toCbor (v : Variable) : v.toCbor.Bounded := by
  refine Cbor.bounded_ofFields ?_
  simp only [List.forall_mem_cons]
  refine ⟨?_, trivial, trivial, trivial, trivial, v.options.bounded_toCbor, Cbor.bounded_ofInt _, nofun⟩
  cases v.initial with
  | none => trivial
  | some vs => exact Cbor.bounded_array Value.bounded_toCbor vs

namespace Entry

theorem bounded_toCbor (e : Entry) : e.toCbor.Bounded := by
  have hlist {n : Nat} (hn : n < Nat.pow 2 64) {items : List Cbor} (hitems : (Cbor.array items).Bounded) :
      ∀ k v, .mk k v ∈ listMember n items → k.Bounded ∧ v.Bounded := by
    intro k v hmem
    unfold listMember at hmem
    split at hmem
    · cases hmem
    · cases List.mem_singleton.mp hmem
      exact ⟨hn, hitems⟩
  rw [toCbor, Cbor.Bounded, Cbor.pairsBounded_iff]
  intro k v hmem
  simp only [List.mem_append] at hmem
  rcases hmem with ((hmem | hmem) | hmem) | hmem
  · simp only [List.mem_cons, CborPair.mk.injEq, List.not_mem_nil, or_false] at hmem
    rcases hmem with ⟨rfl, rfl⟩ | ⟨rfl, rfl⟩ | ⟨rfl, rfl⟩ | ⟨rfl, rfl⟩ | ⟨rfl, rfl⟩
    all_goals exact ⟨by simp [Cbor.Bounded], trivial⟩
  · have htext : ∀ w, (Cbor.ofText w).Bounded := fun _ => trivial
    exact hlist (by decide) (Cbor.bounded_array htext _) k v hmem
  · exact hlist (by decide) (Cbor.bounded_array Variable.bounded_toCbor _) k v hmem
  · exact hlist (by decide) (Cbor.bounded_array Variable.bounded_toCbor _) k v hmem

/-- Whether a stored entry can be read back: its lists are not too long, and its texts are UTF-8. -/
def isReadable (e : Entry) : Bool := e.toCbor.fits Cbor.maxDepth && e.isUtf8

/-- What was stored is read back, up to NaNs, or refused. -/
theorem toOption_decode_encode {e : Entry} (hlen : e.encode.length < Nat.pow 2 64) :
    (decode e.encode).toOption = if e.isReadable then some e.normal else none := by
  have hversion : Version.isReadable Version.current = true := by decide
  unfold decode isReadable encode
  rw [Cbor.decode?_encode e.bounded_toCbor hlen]
  cases e.toCbor.fits Cbor.maxDepth with
  | false => rfl
  | true =>
    simp only [if_true, Option.bind_some, ofCbor?_toCbor, Bool.true_and]
    cases e.isUtf8 with
    | false => rfl
    | true => simp [hversion, Except.toOption]

end Entry

end IrafCl
