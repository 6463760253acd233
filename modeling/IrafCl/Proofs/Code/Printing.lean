import IrafCl.Proofs.Code.Parens
import IrafCl.Proofs.Python.Reads

/-!
# Printed expressions

A printed expression is read as its tree, at a level, and with the parentheses around the whole of it taken off
it still is (`Prints`). One lemma for each form of text says what its parts must be printed as.
-/

namespace IrafCl.Code

open Python (Tree Reads Numeral Entry Spells isIdentifier operandLevel signLevel notLevel)

/-- A text is read as a tree of at least the given level, with or without the parentheses around all of it. -/
structure Prints (n : Nat) (s : Bytes) (t : Tree) : Prop where
  reads : Reads n s t
  neutral : Neutral s
  headed : Headed s
  bare : Reads 0 (stripParens s) t
  bareNeutral : Neutral (stripParens s)

variable {n m : Nat} {s s' : Bytes} {t t' : Tree}

theorem Prints.weaken (h : Prints m s t) (hle : n ≤ m) : Prints n s t :=
  { h with reads := h.reads.weaken hle }

/-- A text that has no parentheses around the whole of it. -/
theorem prints_of_open (hreads : Reads n s t) (hneutral : Neutral s) (hheaded : Headed s) (hstrip : stripParens s = s) :
    Prints n s t where
  reads := hreads
  neutral := hneutral
  headed := hheaded
  bare := by rw [hstrip]; exact hreads.weaken (Nat.zero_le n)
  bareNeutral := by rw [hstrip]; exact hneutral

/-- A text that does not begin with a parenthesis. -/
theorem prints_of_head {b : UInt8} {more : Bytes} (hreads : Reads n (b :: more) t) (hneutral : Neutral (b :: more))
    (hb : b ≠ openParen) : Prints n (b :: more) t :=
  prints_of_open hreads hneutral (.inl ⟨b, more, rfl, hb⟩) (stripParens_of_head hb more)

/-- A text that goes on after a printed one. -/
theorem Prints.extend {a : Bytes} (h : Prints m s t) (ha : a ≠ []) (hreads : Reads n (s ++ a) t') (hneutral : Neutral a) :
    Prints n (s ++ a) t' :=
  prints_of_open hreads (h.neutral.append hneutral) (h.headed.append a) (stripParens_append h.headed ha)

/-! ## Operands -/

theorem isPlain_of_isWordByte {b : UInt8} (h : Python.isWordByte b = true) : isPlain b = true :=
  Bytes.imp_byte Python.isWordByte isPlain (by decide) h

theorem neutral_word (h : ∀ b ∈ s, Python.isWordByte b = true) : Neutral s :=
  neutral_plain (List.all_eq_true.mpr fun b hb => isPlain_of_isWordByte (h b hb))

theorem ne_openParen_of_isPlain {b : UInt8} (h : isPlain b = true) : b ≠ openParen := by
  rintro rfl
  cases h

/-- A text of bytes that the scan takes no notice of. -/
theorem prints_plain (hne : s ≠ []) (hbytes : ∀ b ∈ s, isPlain b = true) (hreads : Reads n s t) : Prints n s t := by
  cases s with
  | nil => exact absurd rfl hne
  | cons b more =>
    exact prints_of_head hreads (neutral_plain (List.all_eq_true.mpr hbytes)) (ne_openParen_of_isPlain (hbytes b (by simp)))

theorem prints_number (h : Numeral s) : Prints operandLevel s (.number s) := by
  refine prints_plain h.ne_nil (fun b hb => ?_) (Python.reads_number h.spells)
  exact Bytes.imp_byte (fun b => Python.isWordByte b || Python.isSign b) isPlain (by decide) (h.bytes b hb)

theorem prints_string (body : Bytes) : Prints operandLevel (quoted body) (.string body) := by
  have hhead : quoteFor body ≠ openParen := by
    intro heq
    have hquote := Python.isQuote_quoteFor body
    rw [heq] at hquote
    cases hquote
  exact prints_of_head (Python.reads_string body) (neutral_quoted body) hhead

/-- The identifiers of a dotted name. -/
def IsPath (ids : List Bytes) : Prop := ids ≠ [] ∧ ids.all isIdentifier = true

instance (ids : List Bytes) : Decidable (IsPath ids) := inferInstanceAs (Decidable (_ ∧ _))

theorem IsPath.isWordByte {ids : List Bytes} (h : IsPath ids) : ∀ b ∈ dotted ids, Python.isWordByte b = true := by
  obtain ⟨-, hids⟩ := h
  rw [List.all_eq_true] at hids
  intro b hb
  rcases Python.mem_dotted hb with rfl | ⟨id, hid, hb⟩
  · rfl
  · exact (Python.isWord_of_identifier (hids id hid)).1.bytes b hb

theorem IsPath.plain {ids : List Bytes} (h : IsPath ids) :
    dotted ids ≠ [] ∧ ∀ b ∈ dotted ids, isPlain b = true := by
  refine ⟨?_, fun b hb => isPlain_of_isWordByte (h.isWordByte b hb)⟩
  obtain ⟨hne, hids⟩ := h
  rw [List.all_eq_true] at hids
  cases ids with
  | nil => exact absurd rfl hne
  | cons id ids =>
    obtain ⟨tail, htail⟩ := @Python.head_dotted id ids
    obtain ⟨b, more, rfl, _⟩ := (Python.isWord_of_identifier (hids id (by simp))).1.start
    rw [htail]
    simp

theorem prints_path {ids : List Bytes} (h : IsPath ids) : Prints operandLevel (dotted ids) (.path ids) :=
  prints_plain h.plain.1 h.plain.2 (Python.reads_path h.1 h.2)

/-- Bytes of words need no escape. -/
theorem quoted_of_word (h : ∀ b ∈ s, Python.isWordByte b = true) : quoted s = "'" ++ s ++ "'" := by
  have hplain : ∀ b ∈ s, escape singleQuote b = [b] := by
    intro b hb
    have hescape := Bytes.imp_byte Python.isWordByte (fun b => escape singleQuote b == [b]) (by decide) (h b hb)
    exact eq_of_beq hescape
  have hquote : s.contains singleQuote = false := by
    rw [Bool.eq_false_iff]
    intro hmem
    cases h _ (List.contains_iff_mem.mp hmem)
  have hbody : s.flatMap (escape singleQuote) = s := by
    rw [List.flatMap_congr hplain, List.flatMap_singleton']
  rw [quoted, quoteFor, hquote, Bool.false_and, if_neg (by decide), hbody]
  rfl

/-- The function that looks up a parameter of its owner. -/
def lookup (owner : List Bytes) : List Bytes := owner ++ [Bytes.ofString "getParObject"]

theorem IsPath.lookup {owner : List Bytes} (h : IsPath owner) : IsPath (lookup owner) := by
  refine ⟨by simp [Code.lookup], ?_⟩
  rw [Code.lookup, List.all_append, h.2]
  decide

/-- A field of the parameter that its owner looks up. -/
def fieldTree (owner : List Bytes) (param field : Bytes) : Tree :=
  .field (.call (.path (lookup owner)) [(none, .string param)]) field

theorem prints_field {owner : List Bytes} {param field : Bytes} (howner : IsPath owner)
    (hparam : ∀ b ∈ param, Python.isWordByte b = true) (hfield : Python.IsWord field) (hdot : Bytes.ascii '.' ∉ field) :
    Prints operandLevel (Expr.field owner param field).text (fieldTree owner param field) := by
  have hpath := prints_path howner.lookup
  have htext : (Expr.field owner param field).text =
      dotted (lookup owner) ++ ("(" ++ quoted param ++ ")" ++ "." ++ field) := by
    have hlookup : dotted (lookup owner) = dotted owner ++ ("." ++ "getParObject") := Bytes.join_concat _ _ howner.1
    rw [hlookup, quoted_of_word hparam, Expr.text]
    simp only [List.append_assoc]
    rfl
  have hreads : Reads operandLevel _ (fieldTree owner param field) := hpath.reads.callField param hfield hdot
  rw [htext]
  refine hpath.extend (List.cons_ne_nil _ _) (by simpa only [List.append_assoc] using hreads) ?_
  have hname := neutral_word hfield.bytes
  exact ((neutral_quoted param).paren.append (neutral_plain (by decide))).append hname

/-! ## Operators -/

theorem Prints.paren (h : Prints n s t) : Prints operandLevel ("(" ++ s ++ ")") t where
  reads := (h.reads.weaken (Nat.zero_le n)).paren
  neutral := h.neutral.paren
  headed := .inr ⟨s, [], by rw [List.append_assoc]; rfl, h.neutral⟩
  bare := by rw [stripParens_paren h.neutral]; exact h.bare
  bareNeutral := by rw [stripParens_paren h.neutral]; exact h.bareNeutral

theorem Prints.minus (h : Prints signLevel s t) : Prints signLevel ("-" ++ s) (.minus t) :=
  prints_of_head h.reads.minus ((neutral_plain (by decide)).append h.neutral) (by decide)

theorem Prints.plus (h : Prints signLevel s t) : Prints signLevel ("+" ++ s) (.plus t) :=
  prints_of_head h.reads.plus ((neutral_plain (by decide)).append h.neutral) (by decide)

theorem Prints.not (h : Prints notLevel s t) : Prints notLevel ("not " ++ s) (.not t) :=
  prints_of_head h.reads.not ((neutral_plain (by decide)).append h.neutral) (by decide)

theorem Prints.binary {op : BinaryOp} (h : Prints (Python.left op) s t) (h' : Prints (Python.right op) s' t') :
    Prints (Python.level op) (s ++ " " ++ op.text ++ " " ++ s') (.binary op t t') := by
  have hreads := h.reads.binary h'.reads
  have hop : Neutral op.text := neutral_plain (by cases op <;> decide)
  have hblank : Neutral (" " : String) := neutral_plain (by decide)
  simp only [List.append_assoc] at hreads ⊢
  exact h.extend nofun hreads (hblank.append (hop.append (hblank.append h'.neutral)))

theorem Prints.before (h : Prints (Python.left .sub) s t) :
    Prints (Python.level .sub) (s ++ "-1") (.binary .sub t (.number "1")) :=
  h.extend nofun h.reads.before (neutral_plain (by decide))

/-! ## Lists -/

/-- A value in a list, with its keyword and its text. Parentheses around a `bare` one are taken off. -/
structure Item where
  key : Option Bytes
  bare : Bool
  text : Bytes
  value : Tree

namespace Item

def all (x : Item) : Bytes := argText x.key x.bare x.text

def arg (x : Item) : Option (List Bytes) × Tree := (x.key.map (Bytes.pieces (Bytes.ascii '.')), x.value)

/-- The value is printed, under a keyword that is a word. -/
structure Prints (x : Item) : Prop where
  text : Code.Prints 0 x.text x.value
  key : ∀ key ∈ x.key, Python.IsWord key

/-- The entry that is read. -/
def entry (x : Item) : Entry := ⟨x.key, if x.bare then stripParens x.text else x.text, x.value⟩

theorem Prints.entry {x : Item} (h : x.Prints) : x.entry.Reads := by
  refine ⟨?_, h.key⟩
  unfold Item.entry
  dsimp only
  split
  · exact h.text.bare
  · exact h.text.reads

theorem Prints.neutral {x : Item} (h : x.Prints) : Neutral x.all := by
  have hvalue : Neutral (if x.bare then stripParens x.text else x.text) := by
    split
    · exact h.text.bareNeutral
    · exact h.text.neutral
  have hkeys := h.key
  unfold Item.all argText
  cases hkey : x.key with
  | none => exact hvalue
  | some key =>
    exact ((neutral_word (hkeys key hkey).bytes).append (neutral_plain (by decide))).append hvalue

end Item

theorem neutral_join {texts : List Bytes} (h : ∀ text ∈ texts, Neutral text) : Neutral (Bytes.join ", " texts) := by
  match texts, h with
  | [], _ => exact neutral_nil
  | [text], h => rw [Bytes.join_singleton]; exact h text (by simp)
  | text :: next :: texts, h =>
    rw [Bytes.join_cons_cons]
    exact (h text (by simp)).append ((neutral_plain (by decide)).append (neutral_join fun x hx => h x (by simp [hx])))

theorem neutral_items {xs : List Item} (h : ∀ x ∈ xs, x.Prints) : Neutral (Bytes.join ", " (xs.map Item.all)) := by
  refine neutral_join fun text htext => ?_
  obtain ⟨x, hx, rfl⟩ := List.mem_map.mp htext
  exact (h x hx).neutral

theorem reads_entries {xs : List Item} (h : ∀ x ∈ xs, x.Prints) : ∀ y ∈ xs.map Item.entry, y.Reads := by
  intro y hy
  obtain ⟨x, hx, rfl⟩ := List.mem_map.mp hy
  exact (h x hx).entry

theorem map_entry (xs : List Item) :
    (xs.map Item.entry).map Entry.all = xs.map Item.all ∧ (xs.map Item.entry).map Entry.arg = xs.map Item.arg ∧
      (xs.map Item.entry).map Entry.value = xs.map Item.value := by
  simp only [List.map_map]
  exact ⟨rfl, rfl, rfl⟩

theorem Prints.call (h : Prints operandLevel s t) {xs : List Item} (hxs : ∀ x ∈ xs, x.Prints) :
    Prints operandLevel (s ++ "(" ++ Bytes.join ", " (xs.map Item.all) ++ ")") (.call t (xs.map Item.arg)) := by
  obtain ⟨htexts, hargs, -⟩ := map_entry xs
  have hreads := h.reads.call (reads_entries hxs)
  rw [htexts, hargs] at hreads
  have htext : s ++ "(" ++ Bytes.join ", " (xs.map Item.all) ++ ")" =
      s ++ ("(" ++ Bytes.join ", " (xs.map Item.all) ++ ")") := by simp only [List.append_assoc]
  rw [htext] at hreads ⊢
  exact h.extend nofun hreads (neutral_items hxs).paren

theorem Prints.index (h : Prints operandLevel s t) {xs : List Item} (hne : xs ≠ []) (hxs : ∀ x ∈ xs, x.Prints)
    (hkeys : ∀ x ∈ xs, x.key = none) :
    Prints operandLevel (s ++ "[" ++ Bytes.join ", " (xs.map Item.all) ++ "]") (.index t (xs.map Item.value)) := by
  obtain ⟨htexts, -, hvalues⟩ := map_entry xs
  have hnone : ∀ y ∈ xs.map Item.entry, y.key = none := by
    intro y hy
    obtain ⟨x, hx, rfl⟩ := List.mem_map.mp hy
    exact hkeys x hx
  have hreads := h.reads.index (by simpa using hne) (reads_entries hxs) hnone
  rw [htexts, hvalues] at hreads
  have htext : s ++ "[" ++ Bytes.join ", " (xs.map Item.all) ++ "]" =
      s ++ ("[" ++ Bytes.join ", " (xs.map Item.all) ++ "]") := by simp only [List.append_assoc]
  rw [htext] at hreads ⊢
  have hopen : Neutral ("[" : String) := neutral_plain (by decide)
  exact h.extend nofun hreads ((hopen.append (neutral_items hxs)).append (neutral_plain (by decide)))

theorem prints_call {fn : List Bytes} (hfn : IsPath fn) {args : List Arg} {xs : List Item}
    (htexts : Arg.texts args = xs.map Item.all) (hxs : ∀ x ∈ xs, x.Prints) :
    Prints operandLevel (Expr.call fn args).text (.call (.path fn) (xs.map Item.arg)) := by
  rw [Expr.text, htexts]
  exact (prints_path hfn).call hxs

end IrafCl.Code
