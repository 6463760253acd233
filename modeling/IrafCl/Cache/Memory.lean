import IrafCl.Cache.Entry
import IrafCl.Library

/-!
# The memory of compiled units

Units are remembered under a key made of the mode, the file name and the digest of their text. A memory
holds a bounded number of stored units; when another one would be too many it forgets all it knows and
starts over. It also remembers the digest of file revisions, so that an unchanged file need not be read
through again. An entry that cannot be read back counts as not there.
-/

namespace IrafCl

/-- A revision of a file: its path, size and time of change. -/
structure Revision where
  path : Bytes
  size : Int
  modified : Int
  deriving DecidableEq, Repr

/-- The digest of a program text. -/
def sourceDigest [Library] (source : Bytes) : Bytes := (Library.hash source).hex

/-- What a key is the digest of: the parts, each closed by a zero byte. -/
def keyMaterial (digest filename mode : Bytes) : Bytes :=
  [mode, filename, digest].flatMap fun part => part ++ [0]

/-- The key of a program text under a file name and a mode. -/
def cacheKey [Library] (digest filename mode : Bytes) : Bytes :=
  "blake2b:" ++ (Library.hash (keyMaterial digest filename mode)).hex

/-- The number of units a memory holds if nothing sensible is asked for. -/
def defaultCapacity : Nat := 256

/-- Stored units by key, and digests by file revision. -/
structure Memory where
  capacity : Nat
  entries : List (Bytes × Bytes)
  digests : List (Revision × Bytes)
  deriving DecidableEq, Repr

namespace Memory

/-- An empty memory for the given number of units. -/
def ofSize (size : Int) : Memory := ⟨if size ≤ 0 then defaultCapacity else size.toNat, [], []⟩

/-- Sets the value of a key in an association list. -/
def assign {α β : Type} [DecidableEq α] (xs : List (α × β)) (key : α) (value : β) : List (α × β) :=
  (key, value) :: xs.filter fun p => p.1 ≠ key

def length (m : Memory) : Nat := m.entries.length

/-- The entry under a key. -/
def get? (m : Memory) (key : Bytes) : Option Entry :=
  match m.entries.lookup key with
  | some data => (Entry.decode data).toOption
  | none => none

/-- Stores an entry under a key. -/
def put (m : Memory) (key : Bytes) (e : Entry) : Memory :=
  if (m.entries.lookup key).isNone && m.capacity ≤ m.entries.length then
    { m with entries := [(key, e.encode)], digests := [] }
  else { m with entries := assign m.entries key e.encode }

/-- The digest of a file revision. -/
def digestOf? (m : Memory) (r : Revision) : Option Bytes := m.digests.lookup r

/-- Remembers the digest of a file revision. -/
def remember (m : Memory) (r : Revision) (digest : Bytes) : Memory :=
  { m with digests := assign m.digests r digest }

end Memory

/-- A memory as the compiler uses it. It may leave file revisions alone, and it may refuse to store. -/
structure Cache where
  memory : Memory
  tracksRevisions : Bool
  refusal : Option Failure

namespace Cache

/-- A memory with nothing held back. -/
def ofMemory (m : Memory) : Cache := ⟨m, true, none⟩

/-- Stores an entry, unless that is refused. -/
def put (c : Cache) (key : Bytes) (e : Entry) : Except Failure Cache :=
  match c.refusal with
  | some f => .error f
  | none => .ok { c with memory := c.memory.put key e }

/-- The digest of a text, which is remembered for its revision. -/
def digest [Library] (c : Cache) (revision : Option Revision) (source : Bytes) : Bytes × Cache :=
  match (if c.tracksRevisions then revision else none) with
  | none => (sourceDigest source, c)
  | some r =>
    match c.memory.digestOf? r with
    | some d => (d, c)
    | none =>
      let d := sourceDigest source
      (d, { c with memory := c.memory.remember r d })

end Cache

namespace Script

/-- Compiles a text after a miss and stores the unit. -/
def compileAndStore [Library] (c : Cache) (key : Bytes) (st : Settings) (source : Bytes) :
    Cache × Logged CompiledUnit :=
  let miss := st.record .debug "cache miss" [("key", key)]
  let r := compile st source
  match r.outcome with
  | .error h => (c, ⟨miss :: r.log, .error h⟩)
  | .ok u =>
    match c.put key (.ofUnit u) with
    | .ok c => (c, ⟨miss :: r.log, .ok u⟩)
    | .error f =>
      let refused := st.record .warn "cache store failed" [("key", key), ("error", f.text)]
      (c, ⟨miss :: r.log ++ [refused], .ok u⟩)

/-- Compiles a text, or takes its unit from the cache. With an external parameter list the cache is left
alone. -/
def compileCached [Library] (c : Cache) (st : Settings) (revision : Option Revision) (source : Bytes) :
    Cache × Logged CompiledUnit :=
  match st.external with
  | some _ => (c, compile st source)
  | none =>
    let (digest, c) := c.digest revision source
    let key := cacheKey digest st.filename st.mode
    match c.memory.get? key with
    | some e => (c, ⟨[st.record .debug "cache hit" [("key", key)]], .ok e.toUnit⟩)
    | none => compileAndStore c key st source

end Script

end IrafCl
