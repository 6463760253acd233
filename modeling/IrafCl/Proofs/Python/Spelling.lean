import IrafCl.Proofs.Python.Grammar
import IrafCl.Proofs.Text.Bytes

/-!
# How tokens are spelled

A text spells some tokens if it is cut into them whatever stands after it, as long as that does not go on
with its last word, number or string (`Spells`). Names, numbers and strings spell themselves, and an
operator between blanks stands between what is spelled on both sides.
-/

namespace IrafCl.Python

open Code (BinaryOp)

/-- A text that no word, number or string goes on with. -/
def Seam (rest : Bytes) : Prop := ∀ b ∈ rest.head?, isWordByte b = false ∧ isQuote b = false

/-- A text is cut into the tokens, before any seam. -/
def Spells (s : Bytes) (ts : List Tok) : Prop := ∀ rest, Seam rest → lex (s ++ rest) = (lex rest).map (ts ++ ·)

theorem seam_cons {b : UInt8} (rest : Bytes) (h : isWordByte b = false ∧ isQuote b = false) : Seam (b :: rest) := by
  intro b' hb'
  cases hb'
  exact h

theorem Spells.lex_eq {s : Bytes} {ts : List Tok} (h : Spells s ts) : lex s = some ts := by
  have heq := h [] nofun
  rw [List.append_nil] at heq
  simpa [lex, lexAfter] using heq

/-! ## Cutting -/

theorem lexAfter_append : ∀ a s : Bytes, lexAfter a.length (a ++ s) = lex s
  | [], _ => rfl
  | _ :: a, s => lexAfter_append a s

theorem lex_cons {b : UInt8} {more rest : Bytes} {t : Option Tok} (h : token? b (more ++ rest) = some (t, more.length)) :
    lex (b :: (more ++ rest)) = (lex rest).map (t.toList ++ ·) := by
  rw [lex, lexAfter, h]
  dsimp only
  rw [lexAfter_append]

theorem lex_blank (rest : Bytes) : lex (32 :: rest) = lex rest := by
  have h : lex (32 :: ([] ++ rest)) = (lex rest).map (Option.toList none ++ ·) := lex_cons rfl
  simpa using h

theorem lex_symbol (b : UInt8) (more : Bytes) {rest : Bytes} {t : Tok}
    (h : token? b (more ++ rest) = some (some t, more.length)) : lex (b :: (more ++ rest)) = (lex rest).map (t :: ·) :=
  lex_cons h

/-- A text spells one token whatever follows. -/
def Marks (s : Bytes) (t : Tok) : Prop := ∀ rest, lex (s ++ rest) = (lex rest).map (t :: ·)

theorem marks_openParen : Marks "(" .openParen := fun _ => lex_symbol 40 [] rfl

theorem marks_closeParen : Marks ")" .closeParen := fun _ => lex_symbol 41 [] rfl

theorem marks_openBracket : Marks "[" .openBracket := fun _ => lex_symbol 91 [] rfl

theorem marks_closeBracket : Marks "]" .closeBracket := fun _ => lex_symbol 93 [] rfl

theorem marks_minus : Marks "-" (.op .sub) := fun _ => lex_symbol 45 [] rfl

theorem marks_plus : Marks "+" (.op .add) := fun _ => lex_symbol 43 [] rfl

theorem marks_comma : Marks ", " .comma := by
  intro rest
  rw [← lex_blank rest]
  exact lex_symbol 44 [] rfl

theorem marks_not : Marks "not " .not := by
  intro rest
  rw [← lex_blank rest]
  exact lex_symbol 110 [111, 116] rfl

theorem marks_op (o : BinaryOp) : Marks (" " ++ o.text ++ " ") (.op o) := by
  intro rest
  have h (b : UInt8) (more : Bytes) (heq : token? b (more ++ 32 :: rest) = some (some (.op o), more.length)) :
      lex (32 :: b :: (more ++ 32 :: rest)) = (lex rest).map (.op o :: ·) := by
    rw [lex_blank, lex_symbol b more heq, lex_blank]
  cases o with
  | or => exact h 111 [114] rfl
  | and => exact h 97 [110, 100] rfl
  | eq => exact h 61 [61] rfl
  | ne => exact h 33 [61] rfl
  | lt => exact h 60 [] rfl
  | le => exact h 60 [61] rfl
  | gt => exact h 62 [] rfl
  | ge => exact h 62 [61] rfl
  | add => exact h 43 [] rfl
  | sub => exact h 45 [] rfl
  | mul => exact h 42 [] rfl
  | div => exact h 47 [] rfl
  | floorDiv => exact h 47 [47] rfl
  | mod => exact h 37 [] rfl
  | pow => exact h 42 [42] rfl

/-! ## Words -/

theorem takeWhile_of_seam {p : UInt8 → Bool} {a rest : Bytes} (ha : ∀ b ∈ a, p b = true)
    (hrest : ∀ b ∈ rest.head?, p b = false) : (a ++ rest).takeWhile p = a ∧ (a ++ rest).dropWhile p = rest := by
  rw [List.takeWhile_append_of_pos ha, List.dropWhile_append_of_pos ha]
  cases rest with
  | nil => simp
  | cons b rest => simp [hrest b rfl]

theorem spells_word {b : UInt8} {more : Bytes} (hb : isWordStart b = true) (hmore : ∀ c ∈ more, isWordByte c = true) :
    Spells (b :: more) [wordToken (b :: more)] := by
  intro rest hrest
  obtain ⟨htake, hdrop⟩ := takeWhile_of_seam hmore fun b hb => (hrest b hb).1
  have hquote : rest.head?.any isQuote = false := by
    cases rest with
    | nil => rfl
    | cons b rest => exact (hrest b rfl).2
  have hblank : b ≠ 32 := by rintro rfl; cases hb
  refine lex_symbol b more ?_
  rw [token?, if_neg hblank, if_pos hb]
  dsimp only
  rw [htake, hdrop, hquote]
  rfl

/-- A word that is no operator is a name. -/
theorem wordToken_of_ne {w : Bytes} (h : w ≠ "or" ∧ w ≠ "and" ∧ w ≠ "not") :
    wordToken w = .path (Bytes.pieces (Bytes.ascii '.') w) := by
  rw [wordToken, if_neg h.1, if_neg h.2.1, if_neg h.2.2]

/-- A word that Python does not keep for itself. -/
structure IsWord (w : Bytes) : Prop where
  start : ∃ b more, w = b :: more ∧ isWordStart b = true
  bytes : ∀ b ∈ w, isWordByte b = true
  free : w ∉ Code.keywords

theorem isWord_of_identifier {id : Bytes} (h : isIdentifier id = true) : IsWord id ∧ Bytes.ascii '.' ∉ id := by
  simp only [isIdentifier, Bool.and_eq_true, Bool.not_eq_true', List.all_eq_true] at h
  obtain ⟨⟨⟨hne, hdigit⟩, hkeyword⟩, hbytes⟩ := h
  have hword : ∀ b ∈ id, (isWordStart b || Bytes.isDigit b) = true ∧ b ≠ Bytes.ascii '.' := by
    intro b hb
    have := hbytes b hb
    refine ⟨?_, ?_⟩
    · simp only [isWordStart, Bool.or_eq_true] at this ⊢
      tauto
    · rintro rfl
      revert this
      decide
  refine ⟨⟨?_, fun b hb => ?_, ?_⟩, fun hdot => (hword _ hdot).2 rfl⟩
  · cases id with
    | nil => cases hne
    | cons b more =>
      refine ⟨b, more, rfl, ?_⟩
      have hb := (hword b (by simp)).1
      have hdigit : Bytes.isDigit b = false := hdigit
      rwa [hdigit, Bool.or_false] at hb
  · rw [isWordByte, (hword b hb).1]
    rfl
  · intro hmem
    rw [List.contains_iff_mem.mpr hmem] at hkeyword
    cases hkeyword

/-- A word spells a dotted name. -/
theorem IsWord.spells {w : Bytes} (h : IsWord w) : Spells w [.path (Bytes.pieces (Bytes.ascii '.') w)] := by
  obtain ⟨⟨b, more, rfl, hb⟩, hbytes, hkeyword⟩ := h
  have hspells := spells_word hb fun c hc => hbytes c (List.mem_cons_of_mem _ hc)
  rw [wordToken_of_ne] at hspells
  · exact hspells
  · refine ⟨?_, ?_, ?_⟩
    all_goals
      intro heq
      rw [heq] at hkeyword
      revert hkeyword
      decide

theorem mem_dotted {b : UInt8} : ∀ {ids : List Bytes}, b ∈ Code.dotted ids → b = Bytes.ascii '.' ∨ ∃ id ∈ ids, b ∈ id
  | [], h => by cases h
  | [id], h => by
    rw [Code.dotted, Bytes.join_singleton] at h
    exact .inr ⟨id, by simp, h⟩
  | id :: next :: ids, h => by
    rw [Code.dotted, Bytes.join_cons_cons, List.mem_append, List.mem_append] at h
    rcases h with h | h | h
    · exact .inr ⟨id, by simp, h⟩
    · exact .inl (List.mem_singleton.mp h)
    · rcases mem_dotted h with h | ⟨id', hid', h⟩
      · exact .inl h
      · exact .inr ⟨id', List.mem_cons_of_mem _ hid', h⟩

theorem head_dotted {id : Bytes} {ids : List Bytes} : ∃ tail, Code.dotted (id :: ids) = id ++ tail := by
  cases ids with
  | nil => exact ⟨[], by rw [Code.dotted, Bytes.join_singleton, List.append_nil]⟩
  | cons next ids => exact ⟨_, by rw [Code.dotted, Bytes.join_cons_cons]⟩

theorem notMem_keywords_of_dot {w : Bytes} (h : Bytes.ascii '.' ∈ w) : w ∉ Code.keywords := by
  intro hw
  have hall : ∀ k ∈ Code.keywords, Bytes.ascii '.' ∉ k := by decide
  exact hall w hw h

/-- A dotted name spells the path of its identifiers. -/
theorem spells_path {ids : List Bytes} (hne : ids ≠ []) (hids : ids.all isIdentifier = true) :
    Spells (Code.dotted ids) [.path ids] := by
  rw [List.all_eq_true] at hids
  have hword := fun id hid => isWord_of_identifier (hids id hid)
  have hpieces : Bytes.pieces (Bytes.ascii '.') (Code.dotted ids) = ids :=
    Bytes.pieces_join hne fun id hid => (hword id hid).2
  have hbytes : ∀ b ∈ Code.dotted ids, isWordByte b = true := by
    intro b hb
    rcases mem_dotted hb with rfl | ⟨id, hid, hb⟩
    · rfl
    · exact (hword id hid).1.bytes b hb
  have hspells : Spells (Code.dotted ids) [.path (Bytes.pieces (Bytes.ascii '.') (Code.dotted ids))] := by
    cases ids with
    | nil => exact absurd rfl hne
    | cons id ids =>
      obtain ⟨tail, htail⟩ := @head_dotted id ids
      obtain ⟨b, more, rfl, hb⟩ := (hword id (by simp)).1.start
      refine IsWord.spells ⟨⟨b, more ++ tail, by rw [htail]; rfl, hb⟩, hbytes, ?_⟩
      by_cases hdot : Bytes.ascii '.' ∈ Code.dotted ((b :: more) :: ids)
      · exact notMem_keywords_of_dot hdot
      · rw [Bytes.pieces_of_not_mem hdot, List.cons.injEq] at hpieces
        rw [hpieces.1]
        exact (hword _ (by simp)).1.free
  rwa [hpieces] at hspells

/-! ## Strings -/

theorem hexValue?_hexDigit (n : Nat) : Bytes.hexValue? (Bytes.hexDigit n) = some (n % 16) := by
  have h : ∀ m < 16, Bytes.hexValue? (Bytes.ascii (Nat.digitChar m)) = some m := by decide
  exact h (n % 16) (Nat.mod_lt _ (by decide))

theorem stringBody?_byte {q b : UInt8} (hb : b ≠ q ∧ b ≠ 10 ∧ b ≠ 13 ∧ b ≠ Code.backslash) {rest : Bytes} (hrest : rest ≠ []) :
    stringBody? q (b :: rest) = (stringBody? q rest).map fun (body, n) => (b :: body, n + 1) := by
  cases rest with
  | nil => exact absurd rfl hrest
  | cons c rest =>
    rw [stringBody?.eq_def]
    dsimp only
    rw [if_neg hb.1, if_neg (by simp [hb.2.1, hb.2.2.1]), if_pos hb.2.2.2]

theorem stringBody?_simple {q c v : UInt8} (hq : isQuote q = true) (hc : c ≠ Bytes.ascii 'x') (hv : unescape? c = some v)
    (rest : Bytes) : stringBody? q (Code.backslash :: c :: rest) =
      (stringBody? q rest).map fun (body, n) => (v :: body, n + 2) := by
  have hslash : Code.backslash ≠ q := by rintro rfl; cases hq
  rw [stringBody?.eq_def]
  dsimp only
  rw [if_neg hslash, if_neg (by decide), if_neg (by decide), if_pos hc, hv]
  cases stringBody? q rest <;> rfl

theorem stringBody?_hex {q : UInt8} (hq : isQuote q = true) (b : UInt8) (rest : Bytes) :
    stringBody? q (Code.backslash :: Bytes.ascii 'x' :: (Bytes.hexByte b ++ rest)) =
      (stringBody? q rest).map fun (body, n) => (b :: body, n + 4) := by
  have hslash : Code.backslash ≠ q := by rintro rfl; cases hq
  have hlt := b.toNat_lt
  have hvalue : UInt8.ofNat (16 * (b.toNat / 16 % 16) + b.toNat % 16) = b := by
    rw [show 16 * (b.toNat / 16 % 16) + b.toNat % 16 = b.toNat by omega, UInt8.ofNat_toNat]
  rw [stringBody?.eq_def]
  dsimp only [Bytes.hexByte, List.cons_append, List.nil_append]
  rw [if_neg hslash, if_neg (by decide), if_neg (by decide), if_neg (by decide), hexValue?_hexDigit, hexValue?_hexDigit]
  dsimp only [Option.bind_eq_bind, Option.bind_some]
  rw [hvalue]
  cases stringBody? q rest <;> rfl

theorem stringBody?_escape {q : UInt8} (hq : isQuote q = true) (b : UInt8) {rest : Bytes} (hrest : rest ≠ []) :
    stringBody? q (Code.escape q b ++ rest) =
      (stringBody? q rest).map fun (body, n) => (b :: body, n + (Code.escape q b).length) := by
  unfold Code.escape
  split
  · next h =>
    have hb : b ≠ Bytes.ascii 'x' ∧ unescape? b = some b := by
      have hb : b = Code.singleQuote ∨ b = Code.doubleQuote ∨ b = Code.backslash := by
        simp only [Bool.or_eq_true, decide_eq_true_eq, isQuote] at h hq
        rcases h with rfl | h
        · tauto
        · exact .inr (.inr h)
      rcases hb with rfl | rfl | rfl <;> decide
    exact stringBody?_simple hq hb.1 hb.2 rest
  split
  · next h => subst h; exact stringBody?_simple hq (by decide) rfl rest
  split
  · next h => subst h; exact stringBody?_simple hq (by decide) rfl rest
  split
  · next h => subst h; exact stringBody?_simple hq (by decide) rfl rest
  split
  · exact stringBody?_hex hq b rest
  · next hquote hnewline _ hreturn _ =>
    simp only [Bool.or_eq_true, decide_eq_true_eq, not_or] at hquote
    exact stringBody?_byte ⟨hquote.1, hnewline, hreturn, hquote.2⟩ hrest

/-- What stands between the quotes of a literal is read back. -/
theorem stringBody?_flatMap {q : UInt8} (hq : isQuote q = true) (rest : Bytes) : ∀ body : Bytes,
    stringBody? q (body.flatMap (Code.escape q) ++ q :: rest) =
      some (body, (body.flatMap (Code.escape q)).length + 1)
  | [] => by
    rw [stringBody?.eq_def]
    cases rest <;> simp
  | b :: body => by
    rw [List.flatMap_cons, List.append_assoc, stringBody?_escape hq b (by simp), stringBody?_flatMap hq rest body]
    simp only [Option.map_some, List.length_append]
    congr 2
    omega

theorem head_escape {q b : UInt8} (hq : isQuote q = true) : ∃ c more, Code.escape q b = c :: more ∧ c ≠ q := by
  have hslash : Code.backslash ≠ q := by rintro rfl; cases hq
  unfold Code.escape
  split
  · exact ⟨_, _, rfl, hslash⟩
  split
  · exact ⟨_, _, rfl, hslash⟩
  split
  · exact ⟨_, _, rfl, hslash⟩
  split
  · exact ⟨_, _, rfl, hslash⟩
  split
  · exact ⟨_, _, rfl, hslash⟩
  · next hquote _ _ _ _ =>
    simp only [Bool.or_eq_true, decide_eq_true_eq, not_or] at hquote
    exact ⟨_, _, rfl, hquote.1⟩

theorem isQuote_quoteFor (s : Bytes) : isQuote (Code.quoteFor s) = true := by
  unfold Code.quoteFor
  split <;> rfl

/-- A literal spells the string it was made of. -/
theorem spells_string (body : Bytes) : Spells (Code.quoted body) [.string body] := by
  intro rest hrest
  have hq := isQuote_quoteFor body
  unfold Code.quoted
  generalize Code.quoteFor body = q at hq
  dsimp only
  have hbody := stringBody?_flatMap hq rest body
  have htriple : ((body.flatMap (Code.escape q) ++ [q]) ++ rest).take 2 ≠ [q, q] := by
    cases body with
    | nil =>
      cases rest with
      | nil => simp
      | cons b rest =>
        have hb := (hrest b rfl).2
        simp only [List.flatMap_nil, List.nil_append, List.singleton_append, List.take_succ_cons, List.take_zero, ne_eq,
          List.cons.injEq, true_and, and_true]
        rintro rfl
        rw [hq] at hb
        cases hb
    | cons b body =>
      obtain ⟨c, more, heq, hc⟩ := @head_escape q b hq
      simp [List.flatMap_cons, heq, hc]
  have hword : q ≠ 32 ∧ isWordStart q = false ∧ Bytes.isDigit q = false ∧ q ≠ Bytes.ascii '.' := by
    simp only [isQuote, Bool.or_eq_true, decide_eq_true_eq] at hq
    rcases hq with rfl | rfl <;> decide
  refine lex_symbol q (body.flatMap (Code.escape q) ++ [q]) ?_
  rw [token?, if_neg hword.1, if_neg (by rw [hword.2.1]; decide), if_neg (by simp [hword.2.2]), if_pos hq, if_neg htriple,
    List.append_assoc, List.singleton_append, hbody]
  simp

end IrafCl.Python
