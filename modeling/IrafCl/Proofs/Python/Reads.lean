import IrafCl.Proofs.Python.Numbers

/-!
# Reading a text from its parts

`Reads n s e` says that the text `s` is read as the expression `e`, of level `n` or above, wherever it
stands before a seam. Texts are read from their parts: an operator between blanks, brackets around a list
with commas, a sign in front.
-/

namespace IrafCl.Python

open Code (BinaryOp)

/-- A text is read as an expression of at least the given level. -/
def Reads (n : Nat) (s : Bytes) (e : Tree) : Prop := ∃ ts, Spells s ts ∧ Derives n ts e

theorem Reads.read_eq {n : Nat} {s : Bytes} {e : Tree} (h : Reads n s e) : read s = some e := by
  obtain ⟨ts, hs, he⟩ := h
  exact read_of_derives hs.lex_eq he

theorem Reads.weaken {n m : Nat} {s : Bytes} {e : Tree} (h : Reads m s e) (hle : n ≤ m) : Reads n s e := by
  obtain ⟨ts, hs, he⟩ := h
  exact ⟨ts, hs, .weaken hle he⟩

/-! ## Tokens side by side -/

theorem Spells.append {s s' : Bytes} {ts ts' : List Tok} (h : Spells s ts) (h' : Spells s' ts')
    (hseam : ∀ rest, Seam rest → Seam (s' ++ rest)) : Spells (s ++ s') (ts ++ ts') := by
  intro rest hrest
  rw [List.append_assoc, h _ (hseam rest hrest), h' rest hrest, Option.map_map]
  congr 1
  funext us
  exact (List.append_assoc ts ts' us).symm

theorem Marks.spells {m : Bytes} {t : Tok} (h : Marks m t) : Spells m [t] := fun rest _ => h rest

theorem Marks.append {m s : Bytes} {t : Tok} {ts : List Tok} (hm : Marks m t) (hs : Spells s ts) :
    Spells (m ++ s) (t :: ts) := by
  intro rest hrest
  rw [List.append_assoc, hm, hs rest hrest, Option.map_map]
  rfl

/-- A mark that begins with a seam, after a text. -/
theorem Spells.marks {b : UInt8} {m s : Bytes} {t : Tok} {ts : List Tok} (hs : Spells s ts) (hm : Marks (b :: m) t)
    (hb : isWordByte b = false ∧ isQuote b = false) : Spells (s ++ b :: m) (ts ++ [t]) :=
  hs.append hm.spells fun rest _ => seam_cons (m ++ rest) hb

/-- A mark that begins with a seam, between two texts. -/
theorem Spells.between {b : UInt8} {m s s' : Bytes} {t : Tok} {ts ts' : List Tok} (hs : Spells s ts)
    (hm : Marks (b :: m) t) (hb : isWordByte b = false ∧ isQuote b = false) (hs' : Spells s' ts') :
    Spells (s ++ (b :: m ++ s')) (ts ++ t :: ts') :=
  hs.append (hm.append hs') fun rest _ => seam_cons (m ++ s' ++ rest) hb

/-! ## Operands -/

theorem reads_number {s : Bytes} (h : Spells s [.number s]) : Reads operandLevel s (.number s) := ⟨_, h, .number s⟩

theorem reads_string (body : Bytes) : Reads operandLevel (Code.quoted body) (.string body) :=
  ⟨_, spells_string body, .string body⟩

theorem reads_path {ids : List Bytes} (hne : ids ≠ []) (hids : ids.all isIdentifier = true) :
    Reads operandLevel (Code.dotted ids) (.path ids) :=
  ⟨_, spells_path hne hids, .path ids hids⟩

theorem Reads.paren {s : Bytes} {e : Tree} (h : Reads 0 s e) : Reads operandLevel ("(" ++ s ++ ")") e := by
  obtain ⟨ts, hs, he⟩ := h
  refine ⟨_, ?_, .paren he⟩
  exact (marks_openParen.append hs).marks marks_closeParen (by decide)

/-! ## Operators -/

theorem Reads.not {s : Bytes} {e : Tree} (h : Reads notLevel s e) : Reads notLevel ("not " ++ s) (.not e) := by
  obtain ⟨ts, hs, he⟩ := h
  exact ⟨_, marks_not.append hs, .not he⟩

theorem Reads.minus {s : Bytes} {e : Tree} (h : Reads signLevel s e) : Reads signLevel ("-" ++ s) (.minus e) := by
  obtain ⟨ts, hs, he⟩ := h
  exact ⟨_, marks_minus.append hs, .minus he⟩

theorem Reads.plus {s : Bytes} {e : Tree} (h : Reads signLevel s e) : Reads signLevel ("+" ++ s) (.plus e) := by
  obtain ⟨ts, hs, he⟩ := h
  exact ⟨_, marks_plus.append hs, .plus he⟩

theorem Reads.binary {o : BinaryOp} {s s' : Bytes} {x y : Tree} (hx : Reads (left o) s x) (hy : Reads (right o) s' y) :
    Reads (level o) (s ++ " " ++ o.text ++ " " ++ s') (.binary o x y) := by
  obtain ⟨ts, hs, hx⟩ := hx
  obtain ⟨ts', hs', hy⟩ := hy
  refine ⟨_, ?_, .binary o hx hy⟩
  have hspells := hs.between (b := 32) (marks_op o) (by decide) hs'
  have htext : s ++ " " ++ o.text ++ " " ++ s' = s ++ (" " ++ o.text ++ " " ++ s') := by simp only [List.append_assoc]
  rw [htext]
  exact hspells

/-- An index that counts from zero. -/
theorem Reads.before {s : Bytes} {e : Tree} (h : Reads (left .sub) s e) :
    Reads (level .sub) (s ++ "-1") (.binary .sub e (.number "1")) := by
  obtain ⟨ts, hs, he⟩ := h
  have hone : Spells ("1" : String) [.number "1"] :=
    spells_decimal (.integer (List.all_eq_true.mp (by decide)) (by decide))
  exact ⟨_, hs.between marks_minus (by decide) hone, .binary .sub he (.weaken (by decide) (.number _))⟩

/-! ## Lists -/

/-- A text in a list, with the keyword it stands under. -/
structure Entry where
  key : Option Bytes
  text : Bytes
  value : Tree

namespace Entry

def all (x : Entry) : Bytes :=
  (match x.key with
    | none => []
    | some key => key ++ "=") ++ x.text

def arg (x : Entry) : Option (List Bytes) × Tree := (x.key.map (Bytes.pieces (Bytes.ascii '.')), x.value)

/-- The text is read, and so is the keyword. -/
structure Reads (x : Entry) : Prop where
  text : Python.Reads 0 x.text x.value
  key : ∀ key ∈ x.key, IsWord key

end Entry

/-- An equals sign that is not doubled stands alone. -/
theorem token?_equals {s : Bytes} (h : s.head? ≠ some 61) : token? 61 s = some (some .equals, 0) := by
  cases s with
  | nil => rfl
  | cons c s =>
    have hbyte : ((61 : UInt8) == c) = false := by
      rw [beq_eq_false_iff_ne]
      rintro rfl
      exact h rfl
    have hlong : ("==" : Bytes).isPrefixOf (61 :: c :: s) = false := by
      show (true && ((61 : UInt8) == c && true)) = false
      rw [hbyte]
      rfl
    have hfind : (symbols.find? fun x => x.1.isPrefixOf (61 :: c :: s)) =
        symbols.tail.find? fun x => x.1.isPrefixOf (61 :: c :: s) :=
      List.find?_cons_of_neg (by show ¬ ("==" : Bytes).isPrefixOf (61 :: c :: s) = true; rw [hlong]; decide)
    show ((symbols.find? fun x => x.1.isPrefixOf (61 :: c :: s)).map fun x => (some x.2, x.1.length - 1)) = _
    rw [hfind]
    rfl

/-- An expression does not begin with an equals sign. -/
theorem head_ne_equals {s : Bytes} {ts : List Tok} (hs : Spells s ts) (hts : Begins ts) : s.head? ≠ some 61 := by
  intro hhead
  cases s with
  | nil => cases hhead
  | cons b s =>
    cases hhead
    have hlex := hs.lex_eq
    obtain ⟨t, ht, _, hequals, heq⟩ := hts.head
    rw [lex, lexAfter] at hlex
    by_cases hdouble : s.head? = some 61
    · obtain ⟨s, rfl⟩ : ∃ s', s = 61 :: s' := List.head?_eq_some_iff.mp hdouble
      obtain ⟨us, _, rfl⟩ := Option.map_eq_some_iff.mp hlex
      cases ht
      exact heq rfl
    · rw [token?_equals hdouble] at hlex
      obtain ⟨us, _, rfl⟩ := Option.map_eq_some_iff.mp hlex
      cases ht
      exact hequals rfl

theorem spells_keyword {key s : Bytes} {ids : List Bytes} {ts : List Tok} (hkey : Spells key [.path ids])
    (hs : Spells s ts) (hts : Begins ts) : Spells (key ++ "=" ++ s) (.path ids :: .equals :: ts) := by
  have hhead := head_ne_equals hs hts
  have hequals : Spells ("=" ++ s) (.equals :: ts) := by
    intro rest hrest
    cases s with
    | nil =>
      obtain ⟨t, ht, _⟩ := hts.head
      have hlex : some ts = some [] := hs.lex_eq.symm
      cases hlex
      cases ht
    | cons c s =>
      have htoken : token? 61 (c :: s ++ rest) = some (some .equals, 0) := token?_equals hhead
      have hlex : lex (61 :: (c :: s ++ rest)) = (lex (c :: s ++ rest)).map (.equals :: ·) := lex_symbol 61 [] htoken
      show lex (61 :: (c :: s ++ rest)) = _
      rw [hlex, hs rest hrest, Option.map_map]
      rfl
  have happend := hkey.append hequals fun rest _ => seam_cons (b := 61) (s ++ rest) (by decide)
  rw [List.append_assoc]
  exact happend

theorem Entry.Reads.piece {x : Entry} (h : x.Reads) :
    ∃ p : Piece, p.arg = x.arg ∧ Spells x.all p.all ∧ Derives 0 p.tokens p.value := by
  obtain ⟨ts, hs, he⟩ := h.text
  refine ⟨⟨x.arg.1, ts, x.value⟩, rfl, ?_, he⟩
  have hkeys := h.key
  unfold Entry.all Piece.all Entry.arg
  cases hkey : x.key with
  | none => exact hs
  | some key => exact spells_keyword (hkeys key hkey).spells hs he.begins

/-- Entries with commas between them spell their pieces. -/
theorem spells_separated : ∀ {xs : List Entry}, xs ≠ [] → (∀ x ∈ xs, x.Reads) →
    ∃ ps : List Piece, ps ≠ [] ∧ ps.map Piece.arg = xs.map Entry.arg ∧
      Spells (Bytes.join ", " (xs.map Entry.all)) (Piece.separated ps) ∧ ∀ p ∈ ps, Derives 0 p.tokens p.value
  | [], hne, _ => absurd rfl hne
  | [x], _, h => by
    obtain ⟨p, harg, hspells, hp⟩ := (h x (by simp)).piece
    refine ⟨[p], by simp, by simp [harg], ?_, by simpa using hp⟩
    rw [List.map_singleton, Bytes.join_singleton]
    exact hspells
  | x :: y :: xs, _, h => by
    obtain ⟨p, harg, hspells, hp⟩ := (h x (by simp)).piece
    have hrest : ∀ z ∈ y :: xs, z.Reads := fun z hz => h z (List.mem_cons_of_mem _ hz)
    obtain ⟨ps, hne, hargs, hmore, hps⟩ := spells_separated (by simp) hrest
    refine ⟨p :: ps, by simp, by simp only [List.map_cons] at hargs ⊢; rw [harg, hargs], ?_, ?_⟩
    · rw [List.map_cons, List.map_cons, Bytes.join_cons_cons]
      cases ps with
      | nil => exact absurd rfl hne
      | cons q ps => exact hspells.between marks_comma (by decide) hmore
    · intro q hq
      rcases List.mem_cons.mp hq with rfl | hq
      · exact hp
      · exact hps q hq

theorem Reads.call {s : Bytes} {f : Tree} (hf : Reads operandLevel s f) {xs : List Entry} (hxs : ∀ x ∈ xs, x.Reads) :
    Reads operandLevel (s ++ "(" ++ Bytes.join ", " (xs.map Entry.all) ++ ")") (.call f (xs.map Entry.arg)) := by
  obtain ⟨ts, hs, hf⟩ := hf
  by_cases hne : xs = []
  · subst hne
    refine ⟨_, ?_, .call hf [] (by simp)⟩
    rw [List.map_nil, List.append_assoc s]
    exact (hs.marks marks_openParen (by decide)).marks marks_closeParen (by decide)
  · obtain ⟨ps, _, hargs, hspells, hps⟩ := spells_separated hne hxs
    rw [← hargs]
    refine ⟨_, ?_, .call hf ps hps⟩
    rw [List.append_assoc s]
    exact (hs.between marks_openParen (by decide) hspells).marks marks_closeParen (by decide)

theorem Reads.index {s : Bytes} {e : Tree} (he : Reads operandLevel s e) {xs : List Entry} (hne : xs ≠ [])
    (hxs : ∀ x ∈ xs, x.Reads) (hkeys : ∀ x ∈ xs, x.key = none) :
    Reads operandLevel (s ++ "[" ++ Bytes.join ", " (xs.map Entry.all) ++ "]") (.index e (xs.map Entry.value)) := by
  obtain ⟨ts, hs, he⟩ := he
  obtain ⟨ps, hps_ne, hargs, hspells, hps⟩ := spells_separated hne hxs
  have hvalues : ps.map Piece.value = xs.map Entry.value := by
    have h := congrArg (List.map Prod.snd) hargs
    simpa [Piece.arg, Entry.arg, Function.comp_def] using h
  have hnone : ∀ p ∈ ps, p.key = none := by
    intro p hp
    have hmem : p.arg ∈ xs.map Entry.arg := by rw [← hargs]; exact List.mem_map_of_mem hp
    obtain ⟨x, hx, heq⟩ := List.mem_map.mp hmem
    have hkey := congrArg Prod.fst heq
    simpa [Entry.arg, Piece.arg, hkeys x hx] using hkey.symm
  rw [← hvalues]
  refine ⟨_, ?_, .index he ps hps_ne hnone hps⟩
  rw [List.append_assoc s]
  exact (hs.between marks_openBracket (by decide) hspells).marks marks_closeBracket (by decide)

/-- A name after a point. -/
theorem spells_field {name : Bytes} (hname : IsWord name) (hdot : Bytes.ascii '.' ∉ name) :
    Spells ("." ++ name) [.dot, .path [name]] := by
  intro rest hrest
  have hspells := hname.spells
  rw [Bytes.pieces_of_not_mem hdot] at hspells
  obtain ⟨b, more, rfl, hb⟩ := hname.start
  have hb : Bytes.isDigit b = false := by
    simpa using Bytes.imp_byte isWordStart (fun b => !Bytes.isDigit b) (by decide) hb
  have htoken : token? 46 (b :: more ++ rest) = some (some .dot, 0) := by
    have hnumber : (Bytes.isDigit 46 || (46 = Bytes.ascii '.' && (b :: more ++ rest).head?.any Bytes.isDigit)) = false := by
      show (false || (true && Bytes.isDigit b)) = false
      rw [hb]
      rfl
    rw [token?, if_neg (by decide), if_neg (by decide), if_neg (by rw [hnumber]; decide)]
    rfl
  have hlex : lex (46 :: (b :: more ++ rest)) = (lex (b :: more ++ rest)).map (.dot :: ·) := lex_symbol 46 [] htoken
  show lex (46 :: (b :: more ++ rest)) = _
  rw [hlex, hspells rest hrest, Option.map_map]
  rfl

/-- A field of what a call with one string gives. -/
theorem Reads.callField {s name : Bytes} {f : Tree} (hf : Reads operandLevel s f) (body : Bytes)
    (hname : IsWord name) (hdot : Bytes.ascii '.' ∉ name) :
    Reads operandLevel (s ++ "(" ++ Code.quoted body ++ ")" ++ "." ++ name)
      (.field (.call f [(none, .string body)]) name) := by
  obtain ⟨ts, hs, hf⟩ := hf
  have hcall := Derives.call hf [⟨none, [.string body], .string body⟩]
    (by simpa using .weaken (by decide) (.string body))
  refine ⟨_, ?_, .field hcall name⟩
  have hspells := (hs.between marks_openParen (by decide) (spells_string body)).between marks_closeParen (by decide)
    (spells_field hname hdot)
  have htext : s ++ "(" ++ Code.quoted body ++ ")" ++ "." ++ name =
      s ++ ("(" ++ Code.quoted body) ++ (")" ++ ("." ++ name)) := by simp only [List.append_assoc]
  have hpieces : Piece.separated [⟨none, [Tok.string body], Tree.string body⟩] = [Tok.string body] := rfl
  rw [htext, hpieces, List.append_assoc (ts ++ _)]
  exact hspells

end IrafCl.Python
