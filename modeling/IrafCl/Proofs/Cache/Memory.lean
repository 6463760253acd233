import IrafCl.Proofs.Cache.Entry
import IrafCl.Proofs.Cache.Key
import IrafCl.Proofs.Script.Jumps

/-!
# The memory is transparent

Calls that share a memory are answered as if each of them compiled its text (`outcomes_compileAll`). What a memory knows
comes from the calls before (`Known`): an entry is the stored unit of a call under the key of that call, a digest is that
of the text of a call. Every call keeps it so, also one that fails or makes the memory forget.
-/

namespace IrafCl

/-! ## What is kept of a unit -/

theorem Cbor.normalFloat_normalFloat (x : Binary64) : normalFloat (normalFloat x) = normalFloat x := by
  unfold normalFloat
  split <;> rfl

@[simp] theorem Value.normal_normal (v : Value) : v.normal.normal = v.normal := by
  cases v <;> simp [Value.normal, Cbor.normalFloat_normalFloat]

@[simp] theorem Variable.normal_normal (v : Variable) : v.normal.normal = v.normal := by
  simp [Variable.normal, Options.normal, Function.comp_def]

namespace Script

/-- A unit of whose numbers no more is kept than that they are NaN. -/
def CompiledUnit.normal (u : CompiledUnit) : CompiledUnit :=
  { u with params := ⟨u.params.vars.map Variable.normal⟩, locals := u.locals.map Variable.normal }

theorem CompiledUnit.normal_normal (u : CompiledUnit) : u.normal.normal = u.normal := by
  simp [CompiledUnit.normal, Function.comp_def]

/-- Without an external list, the parameters of a unit have distinct names. -/
theorem distinct_params [Library] {st : Settings} {source : Bytes} {u : CompiledUnit} (hexternal : st.external = none)
    (h : (compile st source).outcome = .ok u) : u.params.Distinct := by
  obtain ⟨t, scope, g, -, -, hscope, -, -, hu⟩ := compile_eq_ok h
  obtain ⟨header, -, hheader⟩ := declarations_eq_ok hscope
  rw [hu]
  refine Scope.distinct_ofHeader (fun ext hext => ?_) hheader
  rw [hexternal] at hext
  cases hext

/-- A unit whose parameters have distinct names is made again by its stored form. -/
theorem toUnit_normal {u : CompiledUnit} (h : u.params.Distinct) : (Entry.ofUnit u).normal.toUnit = u.normal := by
  have hnames : (ParamList.mk (u.params.vars.map Variable.normal)).names = u.params.names := by
    simp [ParamList.names, Variable.normal, Function.comp_def]
  have hparams : ParamList.ofVars (u.params.vars.map Variable.normal) = ⟨u.params.vars.map Variable.normal⟩ :=
    ParamList.ofVars_vars (p := ⟨u.params.vars.map Variable.normal⟩) (by rw [ParamList.Distinct, hnames]; exact h)
  unfold Entry.toUnit Entry.normal Entry.ofUnit CompiledUnit.normal
  dsimp only
  rw [hparams]

/-! ## Calls -/

/-- A call of the compiler. -/
structure Call where
  settings : Settings
  revision : Option Revision
  source : Bytes

namespace Call

/-- Whether the call uses the memory: with an external parameter list it is left alone. -/
def usesMemory (call : Call) : Bool := call.settings.external.isNone

/-- What the call gives without a memory. -/
def outcome [Library] (call : Call) : Except Halt CompiledUnit := (compile call.settings call.source).outcome

/-- What the key of the call is the digest of. -/
def material [Library] (call : Call) : Bytes :=
  keyMaterial (sourceDigest call.source) call.settings.filename call.settings.mode

def key [Library] (call : Call) : Bytes := cacheKey (sourceDigest call.source) call.settings.filename call.settings.mode

end Call

/-- The outcomes of calls that share a cache, one after the other. -/
def compileAll [Library] (c : Cache) : List Call → List (Except Halt CompiledUnit)
  | [] => []
  | call :: calls =>
    let (c, r) := compileCached c call.settings call.revision call.source
    r.outcome :: compileAll c calls

/-- What is taken for granted of calls that use one memory: no mode has a zero byte, a file revision has one text, the hash
tells the texts and the key materials of the calls apart, and a stored unit is shorter than 2⁶⁴ bytes. -/
structure Coherent [Library] (calls : List Call) : Prop where
  mode : ∀ a ∈ calls, 0 ∉ a.settings.mode
  revision : ∀ a ∈ calls, ∀ b ∈ calls, ∀ r, a.revision = some r → b.revision = some r → a.source = b.source
  source : ∀ a ∈ calls, ∀ b ∈ calls, Library.hash a.source = Library.hash b.source → a.source = b.source
  material : ∀ a ∈ calls, ∀ b ∈ calls, Library.hash a.material = Library.hash b.material → a.material = b.material
  size : ∀ a ∈ calls, ∀ u, a.outcome = .ok u → (Entry.ofUnit u).encode.length < Nat.pow 2 64

/-- Calls with one key compile one text under one name and mode. -/
theorem Coherent.eq_of_key_eq [Library] {calls : List Call} (h : Coherent calls) {a b : Call} (ha : a ∈ calls)
    (hb : b ∈ calls) (hkey : a.key = b.key) :
    a.source = b.source ∧ a.settings.filename = b.settings.filename ∧ a.settings.mode = b.settings.mode := by
  have hmaterial : a.material = b.material := h.material a ha b hb (cacheKey_inj hkey)
  have hlength : (sourceDigest a.source).length = (sourceDigest b.source).length := by
    rw [length_sourceDigest, length_sourceDigest]
  obtain ⟨hdigest, hfilename, hmode⟩ := keyMaterial_inj (h.mode a ha) (h.mode b hb) hlength hmaterial
  exact ⟨h.source a ha b hb (Bytes.hex_injective hdigest), hfilename, hmode⟩

/-! ## What a cache knows -/

/-- Everything in a cache comes from the given calls. -/
structure Known [Library] (calls : List Call) (c : Cache) : Prop where
  entries : ∀ key data, (key, data) ∈ c.memory.entries → ∃ call ∈ calls, ∃ u, call.settings.external = none ∧
    call.outcome = .ok u ∧ key = call.key ∧ data = (Entry.ofUnit u).encode
  digests : ∀ r d, (r, d) ∈ c.memory.digests → ∃ call ∈ calls, call.revision = some r ∧ d = sourceDigest call.source

theorem known_empty [Library] (calls : List Call) (size : Int) : Known calls (.ofMemory (.ofSize size)) :=
  ⟨nofun, nofun⟩

end Script

namespace Memory

theorem mem_of_lookup {α β : Type} [BEq α] [LawfulBEq α] {xs : List (α × β)} {key : α} {value : β}
    (h : xs.lookup key = some value) : (key, value) ∈ xs := by
  obtain ⟨before, after, rfl, -⟩ := List.lookup_eq_some_iff.mp h
  simp

theorem mem_assign {α β : Type} [DecidableEq α] {xs : List (α × β)} {key : α} {value : β} {p : α × β}
    (h : p ∈ assign xs key value) : p = (key, value) ∨ p ∈ xs := by
  rw [assign, List.mem_cons, List.mem_filter] at h
  exact h.imp_right And.left

/-- A memory gains at most the new entry. -/
theorem mem_put {m : Memory} {key : Bytes} {e : Entry} {p : Bytes × Bytes} (h : p ∈ (m.put key e).entries) :
    p = (key, e.encode) ∨ p ∈ m.entries := by
  unfold put at h
  split at h
  · exact .inl (List.mem_singleton.mp h)
  · exact mem_assign h

theorem mem_digests_put {m : Memory} {key : Bytes} {e : Entry} {p : Revision × Bytes}
    (h : p ∈ (m.put key e).digests) : p ∈ m.digests := by
  unfold put at h
  split at h
  · cases h
  · exact h

end Memory

namespace Script

variable {calls : List Call} {call : Call} {c c' : Cache}

namespace Known

/-- The digest a cache gives is that of the text, remembered or not. -/
theorem digest [Library] (hc : Known calls c) (hcalls : Coherent calls) (hcall : call ∈ calls) :
    (c.digest call.revision call.source).1 = sourceDigest call.source ∧
      Known calls (c.digest call.revision call.source).2 := by
  unfold Cache.digest
  split
  · exact ⟨rfl, hc⟩
  · next r hr =>
    have hrevision : call.revision = some r := by
      split at hr
      · exact hr
      · cases hr
    split
    · next d hd =>
      obtain ⟨other, hother, hr', hd'⟩ := hc.digests r d (Memory.mem_of_lookup hd)
      rw [hd', hcalls.revision other hother call hcall r hr' hrevision]
      exact ⟨rfl, hc⟩
    · refine ⟨rfl, hc.entries, fun r' d hmem => ?_⟩
      rcases Memory.mem_assign hmem with heq | hmem
      · cases heq
        exact ⟨call, hcall, hrevision, rfl⟩
      · exact hc.digests r' d hmem

/-- A unit found under the key of a call is the one that the call compiles to. -/
theorem get? [Library] (hc : Known calls c) (hcalls : Coherent calls) (hcall : call ∈ calls)
    (hexternal : call.settings.external = none) {e : Entry} (h : c.memory.get? call.key = some e) :
    ∃ u, call.outcome = .ok u ∧ e.toUnit = u.normal := by
  unfold Memory.get? at h
  split at h
  swap
  · cases h
  next data hdata =>
  obtain ⟨other, hother, u, hexternal', hu, hkey, rfl⟩ := hc.entries _ _ (Memory.mem_of_lookup hdata)
  obtain ⟨hsource, hfilename, hmode⟩ := hcalls.eq_of_key_eq hcall hother hkey
  have hsettings : call.settings = other.settings := by
    cases hs : call.settings
    cases ho : other.settings
    simp_all
  have hcompile : call.outcome = .ok u := by rw [Call.outcome, hsettings, hsource]; exact hu
  rw [Entry.toOption_decode_encode (hcalls.size call hcall u hcompile)] at h
  split at h
  · cases h
    exact ⟨u, hcompile, toUnit_normal (distinct_params hexternal hcompile)⟩
  · cases h

theorem put [Library] (hc : Known calls c) (hcall : call ∈ calls) (hexternal : call.settings.external = none)
    {u : CompiledUnit} (hu : call.outcome = .ok u) (h : c.put call.key (.ofUnit u) = .ok c') : Known calls c' := by
  unfold Cache.put at h
  split at h
  · cases h
  · cases h
    refine ⟨fun key data hmem => ?_, fun r d hmem => hc.digests r d (Memory.mem_digests_put hmem)⟩
    rcases Memory.mem_put hmem with heq | hmem
    · cases heq
      exact ⟨call, hcall, u, hexternal, hu, rfl, rfl⟩
    · exact hc.entries key data hmem

/-- A miss is answered by the compiler, and the cache learns the unit of the call at most. -/
theorem compileAndStore [Library] (hc : Known calls c) (hcall : call ∈ calls) (hexternal : call.settings.external = none) :
    Known calls (compileAndStore c call.key call.settings call.source).1 ∧
      (Script.compileAndStore c call.key call.settings call.source).2.outcome = call.outcome := by
  unfold Script.compileAndStore Call.outcome
  dsimp only
  split
  · next halt h => exact ⟨hc, h.symm⟩
  · next u hu =>
    split
    · next c' hput => exact ⟨hc.put hcall hexternal hu hput, hu.symm⟩
    · exact ⟨hc, hu.symm⟩

/-- One call: what the cache knows still comes from the calls, and the answer is that of the compiler. -/
theorem compileCached [Library] (hc : Known calls c) (hcalls : Coherent calls) (hcall : call.usesMemory → call ∈ calls) :
    Known calls (compileCached c call.settings call.revision call.source).1 ∧
      (Script.compileCached c call.settings call.revision call.source).2.outcome.map CompiledUnit.normal =
        call.outcome.map CompiledUnit.normal := by
  unfold Script.compileCached
  cases hexternal : call.settings.external with
  | some external => exact ⟨hc, rfl⟩
  | none =>
    have hcall : call ∈ calls := hcall (by rw [Call.usesMemory, hexternal]; rfl)
    obtain ⟨hdigest, hknown⟩ := hc.digest hcalls hcall
    cases hd : c.digest call.revision call.source with
    | mk digest c₁ =>
      rw [hd] at hdigest hknown
      dsimp only at hdigest hknown ⊢
      subst hdigest
      split
      · next e he =>
        obtain ⟨u, hu, hunit⟩ := hknown.get? hcalls hcall hexternal he
        refine ⟨hknown, ?_⟩
        rw [hu, hunit]
        exact congrArg Except.ok u.normal_normal
      · obtain ⟨hkept, houtcome⟩ := hknown.compileAndStore hcall hexternal
        exact ⟨hkept, congrArg _ houtcome⟩

/-- Every run of calls from a cache that knows of them only is answered as by the compiler. -/
theorem compileAll [Library] (hc : Known calls c) (hcalls : Coherent calls) (run : List Call)
    (hrun : ∀ call ∈ run, call.usesMemory → call ∈ calls) :
    (compileAll c run).map (·.map CompiledUnit.normal) = run.map (·.outcome.map CompiledUnit.normal) := by
  induction run generalizing c with
  | nil => rfl
  | cons call run ih =>
    obtain ⟨hknown, houtcome⟩ := hc.compileCached hcalls (hrun call List.mem_cons_self)
    have htail := ih hknown fun call hmem => hrun call (List.mem_cons_of_mem _ hmem)
    rw [Script.compileAll, List.map_cons, List.map_cons, houtcome, htail]

end Known

/-- Calls that share a new memory of any size are answered as without it: each gives the unit or the error that compiling
its text gives. -/
theorem outcomes_compileAll [Library] (size : Int) (calls : List Call) (hcalls : Coherent (calls.filter Call.usesMemory)) :
    (compileAll (.ofMemory (.ofSize size)) calls).map (·.map CompiledUnit.normal) =
      calls.map (·.outcome.map CompiledUnit.normal) :=
  (known_empty _ size).compileAll hcalls calls fun _ hmem huses => List.mem_filter.mpr ⟨hmem, huses⟩

/-- A script in a file. -/
def strayFile : Call := ⟨{ filename := "a.cl" }, some ⟨"a.cl", stray.length, 0⟩, stray⟩

/-- A text that is refused. -/
def openQuote : Call := ⟨{ filename := "b.cl" }, none, "\""⟩

/-- What the file is compiled to. -/
def strayUnit : CompiledUnit :=
  let scope : Scope := .supply { Scope.empty with procedure := Scope.scriptName "a.cl" }
  .of strayFile.settings scope [] (Code.unlines (preamble scope "a.cl" false ++ [strayBreak]))

theorem outcome_strayFile : strayFile.outcome.toOption = some strayUnit := by
  have htree : tree strayFile.source = .ok strayTree := tree_stray
  rw [Call.outcome, outcome_compile htree]
  decide +kernel

/-- The file is compiled twice, with the text that is refused between. -/
theorem outcomes_compileAll_fileTwice : strayFile.outcome.toOption = some strayUnit ∧
    Coherent ([strayFile, openQuote, strayFile].filter Call.usesMemory) ∧
    (compileAll (.ofMemory (.ofSize 1)) [strayFile, openQuote, strayFile]).map (·.map CompiledUnit.normal) =
      [strayFile, openQuote, strayFile].map (·.outcome.map CompiledUnit.normal) := by
  have hused : [strayFile, openQuote, strayFile].filter Call.usesMemory = [strayFile, openQuote, strayFile] := rfl
  have hrefused : openQuote.outcome.toOption = none := by decide +kernel
  have hcalls : Coherent [strayFile, openQuote, strayFile] := {
    mode := by decide +kernel
    revision := by
      have heq : ∀ a ∈ [strayFile, openQuote, strayFile], ∀ b ∈ [strayFile, openQuote, strayFile],
          a.revision.isSome → a.revision = b.revision → a.source = b.source := by decide +kernel
      intro a ha b hb r hra hrb
      exact heq a ha b hb (by rw [hra]; rfl) (hra.trans hrb.symm)
    source := by decide +kernel
    material := by decide +kernel
    size := by
      have hfile : ∀ v, strayFile.outcome = .ok v → (Entry.ofUnit v).encode.length < Nat.pow 2 64 := by
        intro v hv
        have hunit := outcome_strayFile
        rw [hv] at hunit
        cases hunit
        decide +kernel
      have hquote : ∀ v, openQuote.outcome = .ok v → (Entry.ofUnit v).encode.length < Nat.pow 2 64 := by
        intro v hv
        rw [hv] at hrefused
        cases hrefused
      simp only [List.forall_mem_cons, List.not_mem_nil, IsEmpty.forall_iff, implies_true, and_true]
      exact ⟨hfile, hquote, hfile⟩ }
  rw [← hused] at hcalls
  exact ⟨outcome_strayFile, hcalls, outcomes_compileAll 1 _ hcalls⟩

end Script

end IrafCl
