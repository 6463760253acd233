import IrafCl.Proofs.Pattern.Scanning
import IrafCl.Proofs.Text.Bytes
import IrafCl.Script.Lexicon

/-!
# The tokens of a script

Every token that a scan of a script gives has a text that fits its kind (`Lexed`), because each pattern
gives only such tokens (`emitsLexed`). A script is cut into such tokens or refused with a lexical report
(`tokenize_ends`). In the same way a token that redirects has one of the texts for it (`emitsRedirected`), and that of a
type has the name of a type for its value (`emitsTypeNamed`).
-/

namespace IrafCl.Script

/-- The text of a token fits its kind. -/
def Lexed (t : Token Symbol) : Prop :=
  match t.kind with
  | .ident => Lexicon.name.Matches t.text
  | .typeName => t.text ∈ typeNames
  | .integer => Lexicon.integer.Matches t.text
  | .float => Lexicon.float.Matches t.text
  | .octal => Lexicon.octal.Matches t.text
  | .hex => Lexicon.hexadecimal.Matches t.text
  | .sexagesimal => Lexicon.sexagesimal.Matches t.text
  | .bool => t.text = "yes" ∨ t.text = "no"
  | .undefined => t.text = "INDEF"
  | .assignOp => t.text ∈ (["+=", "-=", "*=", "//=", "/="] : List Bytes)
  | _ => True

theorem Lexed.name {t : Token Symbol} (h : Lexed t) (hkind : t.kind = .ident) : Lexicon.name.Matches t.text := by
  unfold Lexed at h
  rw [hkind] at h
  exact h

/-- A pattern gives only tokens of some sort. -/
def Emits (good : Token Symbol → Prop) (p : Pattern Depth Symbol) : Prop :=
  ∀ (m : Moment Depth Symbol) (text : Bytes) (data : Depth) (t : Token Symbol),
    p.regex.Matches text → Scanner.react p m text = .ok (data, some t) → good t

section
variable {good : Token Symbol → Prop} {name : Bytes} {regex : Regex} {kind : Symbol}

theorem emits_skip : Emits good ⟨name, regex, none, false⟩ := by
  intro m text data t _ h
  cases h

theorem emits_emit (hgood : ∀ text line, regex.Matches text → good ⟨kind, text, none, line⟩) :
    Emits good ⟨name, regex, some (emit kind), false⟩ := by
  intro m text data t htext h
  cases h
  exact hgood text _ htext

theorem emits_plain (hgood : ∀ text line, good ⟨kind, text, none, line⟩) :
    Emits good ⟨name, regex, some (emit kind), false⟩ :=
  emits_emit fun text line _ => hgood text line

theorem emits_openBracket (hgood : ∀ text line, good ⟨kind, text, none, line⟩) :
    Emits good ⟨name, regex, some (openBracket kind), false⟩ := by
  intro m text data t _ h
  cases h
  exact hgood text _

theorem emits_closeBracket (hgood : ∀ text line, good ⟨kind, text, none, line⟩) :
    Emits good ⟨name, regex, some (closeBracket kind), false⟩ := by
  intro m text data t _ h
  cases h
  exact hgood text _

theorem emits_endOfLine (hgood : ∀ text line, good ⟨.newline, text, none, line⟩) :
    Emits good ⟨name, regex, some endOfLine, false⟩ := by
  intro m text data t _ h
  simp only [Scanner.react, endOfLine] at h
  split at h
  · cases h
    exact hgood text _
  · cases h

theorem emits_quotedString (hgood : ∀ text body line, good ⟨.string, text, body, line⟩) :
    Emits good ⟨name, regex, some quotedString, false⟩ := by
  intro m text data t _ h
  cases h
  exact hgood text _ _

/-- A word is a keyword, a type name or an identifier. -/
theorem emits_word (hkeyword : ∀ text kind line, keyword? text = some kind → good ⟨kind, text, none, line⟩)
    (htype : ∀ text line, text ∈ typeNames → good ⟨.typeName, text, some text, line⟩)
    (hident : ∀ text line, regex.Matches text → good ⟨.ident, text, none, line⟩) :
    Emits good ⟨name, regex, some word, false⟩ := by
  intro m text data t htext h
  simp only [Scanner.react, word] at h
  cases h
  split
  · next kind hkind => exact hkeyword text kind _ hkind
  · split
    · next htext' => exact htype text _ (List.contains_iff_mem.mp htext')
    · exact hident text _ htext

end

/-- The kinds of keywords. -/
def keywordKinds : List Symbol := keyword?.keywords.map (·.2)

theorem mem_keywordKinds {text : Bytes} {kind : Symbol} (h : keyword? text = some kind) : kind ∈ keywordKinds := by
  obtain ⟨x, hfind, rfl⟩ := Option.map_eq_some_iff.mp h
  exact List.mem_map_of_mem (List.mem_of_find?_eq_some hfind)

/-- A keyword is a kind of its own, a truth value or the undefined value. -/
theorem lexed_keyword {text : Bytes} {kind : Symbol} (h : keyword? text = some kind) (line : Int) :
    Lexed ⟨kind, text, none, line⟩ := by
  obtain ⟨⟨word, kind⟩, hfind, rfl⟩ := Option.map_eq_some_iff.mp h
  have htext : (word : Bytes) = text := by simpa using List.find?_some hfind
  subst htext
  have hmem := List.mem_of_find?_eq_some hfind
  simp only [keyword?.keywords, List.mem_cons, List.not_mem_nil, or_false, Prod.mk.injEq] at hmem
  rcases hmem with ⟨rfl, rfl⟩ | ⟨rfl, rfl⟩ | ⟨rfl, rfl⟩ | ⟨rfl, rfl⟩ | ⟨rfl, rfl⟩ | ⟨rfl, rfl⟩ | ⟨rfl, rfl⟩ |
    ⟨rfl, rfl⟩ | ⟨rfl, rfl⟩ | ⟨rfl, rfl⟩ | ⟨rfl, rfl⟩ | ⟨rfl, rfl⟩ | ⟨rfl, rfl⟩ | ⟨rfl, rfl⟩ | ⟨rfl, rfl⟩ |
    ⟨rfl, rfl⟩ | ⟨rfl, rfl⟩ <;> simp [Lexed]

/-- Every pattern of the lexicon gives only tokens that fit their kinds. -/
theorem emitsLexed : ∀ p ∈ Lexicon.patterns, Emits Lexed p := by
  unfold Lexicon.patterns
  simp only [List.forall_mem_cons]
  refine ⟨emits_skip, emits_skip, emits_endOfLine fun _ _ => trivial, emits_quotedString fun _ _ _ => trivial,
    emits_quotedString fun _ _ _ => trivial, emits_emit fun _ _ h => h, emits_emit fun _ _ h => h,
    emits_emit fun _ _ h => h, emits_emit fun _ _ h => h, emits_emit fun _ _ h => h,
    emits_word (fun _ _ line h => lexed_keyword h line) (fun _ _ h => h) (fun _ _ h => h), ?_⟩
  -- only the operators of assignments share a kind; any text fits the other operators and the brackets
  repeat' apply And.intro
  all_goals first
    | exact emits_plain fun _ _ => trivial
    | exact emits_openBracket fun _ _ => trivial
    | exact emits_closeBracket fun _ _ => trivial
    | exact emits_skip
    | exact List.forall_mem_nil _
    | exact emits_emit fun _ _ h => Regex.Matches.choice_texts "+=" ["-=", "*=", "//=", "/="] (by decide) h

/-- A script is cut into the tokens that the patterns give, or refused with a lexical report. -/
theorem tokenize_ends_of {good : Token Symbol → Prop} (hgood : ∀ p ∈ Lexicon.patterns, Emits good p)
    (hnewline : ∀ line, good ⟨.newline, "\n", none, line⟩) (source : Bytes) : Scanner.Ends good (tokenize source) := by
  have hscan : Scanner.Ends good (scan source).outcome := scanner.scan_ends (by decide) hgood 0 source
  unfold tokenize
  cases houtcome : (scan source).outcome with
  | error halt =>
    rw [houtcome] at hscan
    exact hscan
  | ok tokens =>
    rw [houtcome] at hscan
    show ∀ t ∈ terminate tokens, good t
    intro t ht
    unfold terminate at ht
    split at ht
    · split at ht
      · rcases List.mem_append.mp ht with ht | ht
        · exact hscan t ht
        · rw [List.mem_singleton.mp ht]
          exact hnewline _
      · exact hscan t ht
    · exact hscan t ht

theorem tokenize_eq_ok {source : Bytes} {tokens : List (Token Symbol)} (h : (tokenize source).toOption = some tokens) :
    tokenize source = .ok tokens := by
  cases htokens : tokenize source with
  | error halt =>
    rw [htokens] at h
    cases h
  | ok scanned =>
    rw [htokens] at h
    exact congrArg Except.ok (Option.some.inj h)

/-- A script is cut into tokens that fit their kinds, or refused with a lexical report. -/
theorem tokenize_ends (source : Bytes) : Scanner.Ends Lexed (tokenize source) :=
  tokenize_ends_of emitsLexed (fun _ => trivial) source

/-! ## Redirections -/

/-- The kinds of tokens that redirect. -/
def Symbol.redirects : Symbol → Bool
  | .gt | .lt | .redirOp => true
  | _ => false

/-- The redirections of the lexicon. -/
def redirectionTexts : List Bytes :=
  ([">", "<", ">>&", ">&", ">>G", ">>I", ">>P", ">G", ">I", ">P", ">>"] : List String).map Bytes.ofString

/-- A text and the letter of a device after it. -/
theorem exists_device {w : String} (hw : w.toList.all (·.toNat < 128) = true) {text : Bytes}
    (h : (Regex.seq (.text w) (.seq (.one (CharClass.of ['G', 'I', 'P'])) (.wordBoundary true))).Matches text) :
    ∃ b ∈ Bytes.ofString "GIP", text = w ++ [b] := by
  obtain ⟨x, y, rfl, hx, hy⟩ := h.of_seq
  obtain ⟨z, _, rfl, hz, hboundary⟩ := hy.of_seq
  obtain ⟨b, rfl, hb⟩ := hz.byte (by decide)
  cases hboundary
  refine ⟨b, ?_, by rw [hx.text_eq hw, List.append_nil]⟩
  exact List.contains_iff_mem.mp (Bytes.imp_byte (fun b => (CharClass.of ['G', 'I', 'P']).contains b.toNat)
    (fun b => (Bytes.ofString "GIP").contains b) (by decide) hb)

theorem mem_redirectionTexts {text : Bytes} (h : Lexicon.redirection.Matches text) : text ∈ redirectionTexts := by
  have hdevices : ∀ text ∈ (Bytes.ofString "GIP").flatMap (fun b => [Bytes.ofString ">>" ++ [b], Bytes.ofString ">" ++ [b]]),
      text ∈ redirectionTexts := by decide
  cases h with
  | altLeft h => rw [h.text_eq (by decide)]; decide
  | altRight h =>
    cases h with
    | altLeft h => rw [h.text_eq (by decide)]; decide
    | altRight h =>
      cases h with
      | altLeft h =>
        obtain ⟨b, hb, rfl⟩ := exists_device (by decide) h
        exact hdevices _ (List.mem_flatMap.mpr ⟨b, hb, by simp⟩)
      | altRight h =>
        cases h with
        | altLeft h =>
          obtain ⟨b, hb, rfl⟩ := exists_device (by decide) h
          exact hdevices _ (List.mem_flatMap.mpr ⟨b, hb, by simp⟩)
        | altRight h => rw [Regex.Matches.text_eq (by decide) h]; decide

/-- A token that redirects has one of the texts for it. -/
def Redirected (t : Token Symbol) : Prop := t.kind.redirects = true → t.text ∈ redirectionTexts

theorem redirected_of {kind : Symbol} (h : kind.redirects = false) (text : Bytes) (value : Option Bytes) (line : Int) :
    Redirected ⟨kind, text, value, line⟩ := by
  intro hkind
  rw [h] at hkind
  cases hkind

theorem redirected_text {w : String} (hw : w.toList.all (·.toNat < 128) = true) (hmem : Bytes.ofString w ∈ redirectionTexts)
    {text : Bytes} (h : (Regex.text w).Matches text) {kind : Symbol} {line : Int} : Redirected ⟨kind, text, none, line⟩ := by
  intro _
  show text ∈ redirectionTexts
  rw [h.text_eq hw]
  exact hmem

theorem redirected_keyword {text : Bytes} {kind : Symbol} (h : keyword? text = some kind) (line : Int) :
    Redirected ⟨kind, text, none, line⟩ := by
  have hkinds : ∀ kind ∈ keywordKinds, kind.redirects = false := by decide
  exact redirected_of (hkinds kind (mem_keywordKinds h)) text none line

/-- Every pattern of the lexicon gives redirections with one of the texts for them. -/
theorem emitsRedirected : ∀ p ∈ Lexicon.patterns, Emits Redirected p := by
  unfold Lexicon.patterns
  simp only [List.forall_mem_cons]
  repeat' apply And.intro
  -- all but three patterns give tokens that do not redirect
  all_goals first
    | exact emits_plain fun _ _ => redirected_of rfl _ _ _
    | exact emits_openBracket fun _ _ => redirected_of rfl _ _ _
    | exact emits_closeBracket fun _ _ => redirected_of rfl _ _ _
    | exact emits_endOfLine fun _ _ => redirected_of rfl _ _ _
    | exact emits_quotedString fun _ _ _ => redirected_of rfl _ _ _
    | exact emits_word (fun _ _ line h => redirected_keyword h line) (fun _ _ _ => redirected_of rfl _ _ _)
        (fun _ _ _ => redirected_of rfl _ _ _)
    | exact emits_skip
    | exact List.forall_mem_nil _
    | exact emits_emit fun _ _ h _ => mem_redirectionTexts h
    | exact emits_emit fun _ _ h => redirected_text (by decide) (by decide) h

/-! ## Types -/

/-- The token of a type has the name of a type for its value. -/
def TypeNamed (t : Token Symbol) : Prop := t.kind = .typeName → ∃ type ∈ typeNames, t.value = some type

theorem typeNamed_of {kind : Symbol} (h : kind ≠ .typeName) (text : Bytes) (value : Option Bytes) (line : Int) :
    TypeNamed ⟨kind, text, value, line⟩ := fun hkind => absurd hkind h

theorem typeNamed_keyword {text : Bytes} {kind : Symbol} (h : keyword? text = some kind) (line : Int) :
    TypeNamed ⟨kind, text, none, line⟩ := by
  have hkinds : ∀ kind ∈ keywordKinds, kind ≠ .typeName := by decide
  exact typeNamed_of (hkinds kind (mem_keywordKinds h)) text none line

/-- Only words are types, and those are the names of types. -/
theorem emitsTypeNamed : ∀ p ∈ Lexicon.patterns, Emits TypeNamed p := by
  unfold Lexicon.patterns
  simp only [List.forall_mem_cons]
  repeat' apply And.intro
  all_goals first
    | exact emits_plain fun _ _ => typeNamed_of (by decide) _ _ _
    | exact emits_openBracket fun _ _ => typeNamed_of (by decide) _ _ _
    | exact emits_closeBracket fun _ _ => typeNamed_of (by decide) _ _ _
    | exact emits_endOfLine fun _ _ => typeNamed_of (by decide) _ _ _
    | exact emits_quotedString fun _ _ _ => typeNamed_of (by decide) _ _ _
    | exact emits_word (fun _ _ line h => typeNamed_keyword h line) (fun text _ htype _ => ⟨text, htype, rfl⟩)
        (fun _ _ _ => typeNamed_of (by decide) _ _ _)
    | exact emits_skip
    | exact List.forall_mem_nil _

end IrafCl.Script
