import IrafCl.Proofs.Number.Reading
import IrafCl.Proofs.Script.Declared
import IrafCl.Proofs.Script.Numerals
import IrafCl.Proofs.Script.Spacing

/-!
# Integers as defaults

A number may be the default of an integer as a constant, with its sign before it, or as a text between quotes. The constant
is read first and takes its sign afterwards, the text is read with its sign (`convert_literal`, `convert_quoted`). So they give
the same default, or none, but for the least integer, whose magnitude is no integer (`default_signed`).
-/

namespace IrafCl.Script

open Scanner Scope
open Reading (signed FitsInt64 signOf int? int?_eq inBase isSome_digit?_ten signOf_of_head)

/-- Decimal digits behind an optional sign. -/
def IsSigned (d : Bytes) : Prop :=
  ∃ sign ∈ (["", "+", "-"] : List Bytes), ∃ ds, d = sign ++ ds ∧ ds ≠ [] ∧ ∀ b ∈ ds, Bytes.isDigit b = true

/-- The declaration of an integer `n`. -/
def intSource (init : Bytes) : Bytes := "int n = " ++ (init ++ "\n")

/-- The default of the variable `n` of a script. -/
def defaultOf [Library] (st : Settings) (source : Bytes) : Except Halt (Option Value) := do
  let t ← tree source
  let scope ← (declarations st t).2
  return (scope.lookup? "n").map Variable.default

/-! ## Lexemes -/

/-- The end of the line behind a constant. -/
theorem cuts_end {p : Scanner.Progress Depth Symbol} (hdata : p.data = 0) {t : Token Symbol} (ht : p.tokens.head? = some t)
    (hkind : newlineEnds t.kind = true) :
    ∃ cuts q, scanner.Cuts p "\n" cuts q [] ∧ given cuts = [⟨.newline, "\n", none, p.line⟩] := by
  have hends : endsStatement p = true := by simp [endsStatement, hdata, ht, hkind]
  have hcuts : scanner.Cuts p ([10] ++ []) _ _ [] :=
    .step (lexeme?_lineEnd (.inl rfl) []) (List.cons_ne_nil _ _) rfl (react_lineEnd p [10]) .nil
  refine ⟨_, _, hcuts, ?_⟩
  rw [hends]
  rfl

theorem cuts_digits {ds : Bytes} (hne : ds ≠ []) (hds : ∀ b ∈ ds, Bytes.isDigit b = true) {p : Scanner.Progress Depth Symbol}
    (hdata : p.data = 0) : ∃ cuts q, scanner.Cuts p (ds ++ "\n") cuts q [] ∧
      given cuts = [⟨.integer, ds, none, p.line⟩, ⟨.newline, "\n", none, p.line⟩] := by
  have hmatch : Lexicon.integer.Matches ds := Regex.matches_many1 rfl hne fun b hb => contains_digits (hds b hb)
  obtain ⟨name, hlexeme⟩ := lexeme?_whole (by decide : (.integer, Lexicon.integer) ∈ numerals) hmatch nofun
  have hlexeme : lexeme? Lexicon.patterns (ds ++ "\n") = some (⟨name, Lexicon.integer, some (emit .integer), false⟩, ds.length) := by
    refine lexeme?_onto (x := []) (v := []) ?_ (fun _ => ⟨?_, ?_⟩) nofun ?_
    · rwa [List.append_nil, List.append_nil]
    · intro h
      cases congrArg Pattern.regex h
    · intro h
      cases congrArg Pattern.handler h
    · intro b hb
      cases hb
      decide
  have hline : Bytes.newlines ds = 0 := newlines_eq_zero fun hmem => by cases hds 10 hmem
  let t : Token Symbol := ⟨.integer, ds, none, p.line⟩
  obtain ⟨cuts, q, hcuts, hgiven⟩ := cuts_end (p := p.advance ds p.data (some t)) hdata (t := t) rfl rfl
  refine ⟨_, q, .step hlexeme hne rfl rfl hcuts, ?_⟩
  rw [Progress.advance, hline] at hgiven
  simp only [given, List.filterMap_cons] at hgiven ⊢
  rw [hgiven]
  rfl

def Sign.token : Sign → Token Symbol
  | .plus => ⟨.plus, "+", none, 1⟩
  | .minus => ⟨.minus, "-", none, 1⟩

/-- The pattern of assignments that apply an operator. -/
def assignPattern : Pattern Depth Symbol :=
  ⟨"assignop", Regex.choice (["+=", "-=", "*=", "//=", "/="].map Regex.text), some (emit .assignOp), false⟩

/-- A sign before a digit is a lexeme. -/
theorem lexeme?_sign (sign : Sign) {d : UInt8} (hd : Bytes.isDigit d = true) (rest : Bytes) :
    ∃ name regex, lexeme? Lexicon.patterns (sign.token.text ++ d :: rest) =
      some (⟨name, regex, some (emit sign.token.kind), false⟩, sign.token.text.length) := by
  -- only an assignment goes on with an equals sign
  have hoperator {b : UInt8} {p : Pattern Depth Symbol} (hb : b ≠ 47)
      (hfilter : Lexicon.patterns.filter (·.regex.starts b) = [assignPattern, p])
      (hlength : p.regex.matchLength? (b :: d :: rest) = some 1) : lexeme? Lexicon.patterns (b :: d :: rest) = some (p, 1) := by
    have hassign : assignPattern.regex.matchLength? (b :: d :: rest) = none := by
      refine Regex.matchLength?_eq_none fun s more hs hmatch => ?_
      have hmem := hmatch.choice_texts _ _ (by decide)
      have hequals : d ≠ 61 := by rintro rfl; cases hd
      simp only [List.map_cons, List.map_nil, List.mem_cons, List.not_mem_nil, or_false] at hmem
      rcases hmem with rfl | rfl | rfl | rfl | rfl <;> cases hs <;> first | exact hequals rfl | exact hb rfl
    rw [lexeme?_like b (List.all_eq_true.mpr fun _ _ => Bool.not_or_self _), hfilter]
    exact lexeme?_of_first [assignPattern] (by simpa using hassign) hlength
  have hlength {cls : CharClass} {b : UInt8} (hb : b < 128) (hcontains : cls.contains b.toNat = true) :
      (Regex.one cls).matchLength? (b :: d :: rest) = some 1 := (Regex.takes_byte hb hcontains).matchLength?
  cases sign with
  | plus => exact ⟨"plus", Regex.text "+", hoperator (by decide) rfl (hlength (by decide) (by decide))⟩
  | minus => exact ⟨"minus", Regex.text "-", hoperator (by decide) rfl (hlength (by decide) (by decide))⟩

/-- The tokens of a constant and its sign, on a line that ends behind it. -/
def constantTokens (sign : Option Sign) (c : Token Symbol) : List (Token Symbol) :=
  (sign.map Sign.token).toList ++ [c, ⟨.newline, "\n", none, 1⟩]

theorem cuts_literal (sign : Option Sign) {ds : Bytes} (hne : ds ≠ []) (hds : ∀ b ∈ ds, Bytes.isDigit b = true)
    {p : Scanner.Progress Depth Symbol} (hdata : p.data = 0) (hline : p.line = 1) :
    ∃ cuts q, scanner.Cuts p ((sign.map (·.token.text)).getD [] ++ (ds ++ "\n")) cuts q [] ∧
      given cuts = constantTokens sign ⟨.integer, ds, none, 1⟩ := by
  cases sign with
  | none =>
    obtain ⟨cuts, q, hcuts, hgiven⟩ := cuts_digits hne hds hdata
    rw [hline] at hgiven
    exact ⟨cuts, q, hcuts, hgiven⟩
  | some sign =>
    obtain ⟨d, ds, rfl⟩ := List.exists_cons_of_ne_nil hne
    obtain ⟨name, regex, hlexeme⟩ := lexeme?_sign sign (hds d List.mem_cons_self) (ds ++ "\n")
    have hsilent : sign.token.text ≠ [] ∧ Bytes.newlines sign.token.text = 0 := by cases sign <;> decide
    have htoken : sign.token = ⟨sign.token.kind, sign.token.text, none, 1⟩ := by cases sign <;> rfl
    have hreact : react ⟨name, regex, some (emit sign.token.kind), false⟩ p.moment sign.token.text =
        .ok (p.data, some sign.token) := by
      rw [htoken, ← Int.natCast_one, ← hline]
      rfl
    obtain ⟨cuts, q, hcuts, hgiven⟩ := cuts_digits (p := p.advance sign.token.text p.data (some sign.token)) hne hds hdata
    rw [Progress.advance, hsilent.2, hline] at hgiven
    refine ⟨_, q, .step hlexeme hsilent.1 rfl hreact hcuts, ?_⟩
    simp only [given, List.filterMap_cons] at hgiven ⊢
    rw [hgiven]
    rfl

/-- A string without escapes closes at its delimiter. -/
theorem closing_plain {quote : UInt8} (rest : Bytes) : ∀ {body : Bytes}, (∀ b ∈ body, b ≠ quote ∧ b ≠ 10 ∧ b ≠ 92) →
    closing quote (body ++ quote :: rest) = some rest
  | [], _ => closing_self quote rest
  | b :: body, h => by
    obtain ⟨⟨hquote, hline, hescape⟩, hbody⟩ := List.forall_mem_cons.mp h
    rw [List.cons_append, closing_cons hquote hline hescape, closing_plain rest hbody]

theorem unescape_plain : ∀ {body : Bytes}, (92 : UInt8) ∉ body → unescape body = body
  | [], _ => rfl
  | [_], _ => rfl
  | b :: c :: body, h => by
    obtain ⟨hb, hbody⟩ := not_or.mp (mt List.mem_cons.mpr h)
    rw [unescape, if_pos (Ne.symm hb), unescape_plain hbody]

/-- A text between quotes. -/
def inQuotes (body : Bytes) : Bytes := 34 :: (body ++ [34])

theorem cuts_quoted {body : Bytes} (hbody : ∀ b ∈ body, b ≠ 34 ∧ b ≠ 10 ∧ b ≠ 92) {p : Scanner.Progress Depth Symbol}
    (hdata : p.data = 0) (hline : p.line = 1) : ∃ cuts q, scanner.Cuts p (inQuotes body ++ "\n") cuts q [] ∧
      given cuts = constantTokens none ⟨.string, inQuotes body, some body, 1⟩ := by
  have hlexeme : lexeme? Lexicon.patterns (inQuotes body ++ "\n") = some (stringPattern "dstring" '"', (inQuotes body).length) := by
    have hopen := lexeme?_delimiter (by decide : ("dstring", '"') ∈ strings) (body ++ 34 :: [10])
    have hclosing : closing (Bytes.ascii '"') (body ++ 34 :: [10]) = some [10] := closing_plain [10] hbody
    rw [hclosing, Option.map_some] at hopen
    rw [inQuotes, List.cons_append, List.append_assoc]
    refine hopen.trans (congrArg some (Prod.ext rfl ?_))
    simp
  have hvalue : unquote (inQuotes body) = body := by
    have hslash : (92 : UInt8) ∉ body := fun hmem => (hbody 92 hmem).2.2 rfl
    have hlength : ¬ (inQuotes body).length < 2 := by simp [inQuotes]
    rw [unquote, if_neg hlength, inQuotes, List.drop_one, List.tail_cons, List.dropLast_concat, unescape_plain hslash]
  have hnewlines : Bytes.newlines (inQuotes body) = 0 := by
    refine newlines_eq_zero fun hmem => ?_
    simp only [inQuotes, List.mem_cons, List.mem_append, List.not_mem_nil, or_false] at hmem
    rcases hmem with h | h | h
    · cases h
    · exact (hbody 10 h).2.1 rfl
    · cases h
  let t : Token Symbol := ⟨.string, inQuotes body, some body, 1⟩
  have hreact : react (stringPattern "dstring" '"') p.moment (inQuotes body) = .ok (p.data, some t) := by
    have htoken : react (stringPattern "dstring" '"') p.moment (inQuotes body) =
      .ok (p.data, some ⟨.string, inQuotes body, some (unquote (inQuotes body)), p.line⟩) := rfl
    rw [htoken, hvalue, hline]
    rfl
  obtain ⟨cuts, q, hcuts, hgiven⟩ := cuts_end (p := p.advance (inQuotes body) p.data (some t)) hdata (t := t) rfl rfl
  rw [Progress.advance, hnewlines, hline] at hgiven
  refine ⟨_, q, .step hlexeme (List.cons_ne_nil _ _) rfl hreact hcuts, ?_⟩
  simp only [given, List.filterMap_cons] at hgiven ⊢
  rw [hgiven]
  rfl

/-- The tokens before the initial value. -/
def headTokens : List (Token Symbol) := [⟨.typeName, "int", some "int", 1⟩, ⟨.ident, "n", none, 1⟩, ⟨.equals, "=", none, 1⟩]

theorem tokenize_intSource {init : Bytes} (hinit : ∀ b ∈ init.head?, isSpace b = false) (hne : init ≠ []) {sign : Option Sign}
    {c : Token Symbol} (h : ∀ p : Scanner.Progress Depth Symbol, p.data = 0 → p.line = 1 →
      ∃ cuts q, scanner.Cuts p (init ++ "\n") cuts q [] ∧ given cuts = constantTokens sign c) :
    tokenize (intSource init) = .ok (headTokens ++ constantTokens sign c) := by
  have hstop (rest : Bytes) : StopsFirst (32 :: rest) := fun b hb => by
    rw [← Option.some.inj hb]
    decide
  have hword {text : Bytes} {p : Pattern Depth Symbol} (hclosed : lexeme? Lexicon.patterns (text ++ [32]) = some (p, text.length))
      (hp : p ≠ commentPattern ∧ p ≠ blankPattern) (rest : Bytes) :
      lexeme? Lexicon.patterns (text ++ 32 :: rest) = some (p, text.length) :=
    lexeme?_onto (x := []) (v := [32]) hclosed (fun _ => hp) (hstop []) (hstop rest)
  have hblank {b : UInt8} (hb : isSpace b = false) (rest : Bytes) :
      lexeme? Lexicon.patterns ([32] ++ b :: rest) = some (blankPattern, 1) := by
    refine lexeme?_blanks_iff.mpr ⟨⟨List.cons_ne_nil _ _, List.forall_mem_singleton.mpr rfl⟩, fun c hc => ?_, fun h => by cases h.1⟩
    rw [← Option.some.inj hc]
    exact hb
  obtain ⟨b, init, rfl⟩ := List.exists_cons_of_ne_nil hne
  obtain ⟨cuts, q, hcuts, hgiven⟩ := h ⟨0, headTokens.reverse, 1, 8⟩ rfl rfl
  have htype : lexeme? Lexicon.patterns (("int" : Bytes) ++ [32]) = some (namePattern, 3) := by rfl
  have hname : lexeme? Lexicon.patterns (("n" : Bytes) ++ [32]) = some (namePattern, 1) := by rfl
  have hequals : lexeme? Lexicon.patterns (("=" : Bytes) ++ [32]) =
      some (⟨"equals", Regex.text "=", some (emit .equals), false⟩, 1) := by rfl
  have hpattern : namePattern ≠ commentPattern ∧ namePattern ≠ blankPattern := by
    constructor <;> intro hname <;> cases congrArg Pattern.name hname
  have hsource : intSource (b :: init) =
      ("int" : Bytes) ++ ([32] ++ (("n" : Bytes) ++ ([32] ++ (("=" : Bytes) ++ ([32] ++ b :: (init ++ [10])))))) := rfl
  obtain ⟨front, hfront, hall⟩ : ∃ front, given front = headTokens ∧
      scanner.Cuts ⟨0, [], 1, 0⟩ (intSource (b :: init)) (front ++ cuts) q [] := by
    rw [hsource]
    exact ⟨[_, _, _, _, _, _], rfl, .step (hword htype hpattern _) (List.cons_ne_nil _ _) rfl rfl
      (.step (hblank rfl _) (List.cons_ne_nil _ _) rfl rfl
        (.step (hword hname hpattern _) (List.cons_ne_nil _ _) rfl rfl
          (.step (hblank rfl _) (List.cons_ne_nil _ _) rfl rfl
            (.step (hword hequals ⟨nofun, nofun⟩ _) (List.cons_ne_nil _ _) rfl rfl
              (.step (hblank (hinit b rfl) _) (List.cons_ne_nil _ _) rfl rfl hcuts)))))⟩
  have houtcome : (scan (intSource (b :: init))).outcome = .ok (headTokens ++ constantTokens sign c) := by
    rw [← hfront, ← hgiven, given, given, ← List.filterMap_append]
    exact hall.outcome_eq
  have hlast : (headTokens ++ constantTokens sign c).getLast? = some ⟨.newline, "\n", none, 1⟩ := by
    cases sign <;> rfl
  rw [tokenize, houtcome, Except.map, terminate, hlast]
  rfl

/-! ## Declarations -/

/-- The variable `n` with an initial value. -/
def declVar (sign : Option Sign) (c : Token Symbol) : Tree :=
  .branch .declVar .unset [.branch .varName .unset [.leaf ⟨.ident, "n", none, 1⟩], .leaf ⟨.equals, "=", none, 1⟩,
    .branch .initList .unset [.branch .initValue .unset
      ((sign.map fun s => .leaf s.token).toList ++ [.branch .constant .unset [.leaf c]])]]

/-- The program that declares it. -/
def declTree (sign : Option Sign) (c : Token Symbol) : Tree :=
  .branch .program .unset [
    .branch .localDecls .unset [.branch .localDecls .unset [], integerDecl 1 [declVar sign c]], .branch .stmtList .unset []]

theorem leaves_declTree (sign : Option Sign) (c : Token Symbol) :
    (declTree sign c).leaves = headTokens ++ constantTokens sign c := by
  cases sign <;> rfl

/-- A node has grown if one of its children has, and its other children are seen to. -/
theorem grown_around {k : Symbol} {n : Tree} (before after : List Tree) (hn : Grown n)
    (hkinds : (productions k).any (fun rhs => (before ++ n :: after).map Node.kind? == rhs.map some) = true)
    (hbefore : allGrow before = true) (hafter : allGrow after = true) : Grown (.branch k .unset (before ++ n :: after)) := by
  obtain ⟨rhs, hrhs, heq⟩ := List.any_eq_true.mp hkinds
  refine grown_branch hrhs (beq_iff_eq.mp heq) ?_ .unset
  rw [List.forall_mem_append, List.forall_mem_cons]
  exact ⟨grown_of_allGrow hbefore, hn, grown_of_allGrow hafter⟩

theorem grown_declTree (sign : Option Sign) {c : Token Symbol} (hkind : c.kind = .integer ∨ c.kind = .string) (hc : Lexed c) :
    Grown (declTree sign c) := by
  have hleaf : Grown (.leaf c) := by rcases hkind with h | h <;> exact grown_leaf (by rw [h]; rfl) (by rw [h]; decide) hc
  have hconstant : Grown (.branch .constant .unset [.leaf c]) := by
    refine grown_around [] [] hleaf ?_ rfl rfl
    obtain ⟨kind, text, value, line⟩ := c
    rcases hkind with h | h <;> cases h <;> rfl
  have hvalue : Grown (.branch .initValue .unset
      ((sign.map fun s => .leaf s.token).toList ++ [.branch .constant .unset [.leaf c]])) := by
    rcases sign with _ | _ | _ <;> exact grown_around _ [] hconstant rfl rfl rfl
  have hlist : Grown (.branch .initList .unset [_]) := grown_around [] [] hvalue rfl rfl rfl
  have hvar : Grown (.branch .declVar .unset [_, _, _]) :=
    grown_around [.branch .varName .unset [.leaf ⟨.ident, "n", none, 1⟩], .leaf ⟨.equals, "=", none, 1⟩] [] hlist rfl rfl rfl
  have hspec : Grown (.branch .declSpec .unset [_]) := grown_around [] [] hvar rfl rfl rfl
  have hspecs : Grown (.branch .declList .unset [_]) := grown_around [] [] hspec rfl rfl rfl
  have hstmt : Grown (.branch .declStmt .unset [_, _, _]) := grown_around [.leaf ⟨.typeName, "int", some "int", 1⟩]
    [.branch .term .unset [.leaf ⟨.newline, "\n", none, 1⟩]] hspecs rfl rfl rfl
  have hlocals : Grown (.branch .localDecls .unset [_, _]) := grown_around [.branch .localDecls .unset []] [] hstmt rfl rfl rfl
  exact grown_around [] [.branch .stmtList .unset []] hlocals rfl rfl rfl

theorem tree_intSource {init : Bytes} {sign : Option Sign} {c : Token Symbol} (hkind : c.kind = .integer ∨ c.kind = .string)
    (hc : Lexed c) (h : tokenize (intSource init) = .ok (headTokens ++ constantTokens sign c)) :
    tree (intSource init) = .ok (declTree sign c) := by
  have htokens : (tokenize (intSource init)).toOption = some (declTree sign c).leaves := by
    rw [h, leaves_declTree]
    rfl
  have hunset : (declTree sign c).nodes.all (fun m => m.types = .unset) = true := by rcases sign with _ | _ | _ <;> rfl
  have hkinds : ∀ token ∈ (declTree sign c).leaves, token.kind ≠ .kwElse ∧ token.kind ≠ .eof := by
    rw [leaves_declTree, headTokens, constantTokens]
    rcases hkind with hkind | hkind <;> rcases sign with _ | _ | _ <;> simp [hkind, Sign.token]
  exact tree_eq_ok htokens (grown_declTree sign hkind hc) rfl (by simpa using hunset) hkinds

theorem ofTree?_declTree {sign : Option Sign} {t : Token Symbol} {c : Constant} (hc : Constant.ofToken? t = some c)
    (hline : c.line = 1) :
    Header.ofTree? (declTree sign t) = some ⟨none, [], [⟨"int", [⟨.scalar "n", some [⟨sign, c, 1⟩], [], 1⟩]⟩]⟩ := by
  have hvalue : signedConstant? (.branch .initValue .unset
      ((sign.map fun s => .leaf s.token).toList ++ [.branch .constant .unset [.leaf t]])) = some ⟨sign, c, 1⟩ := by
    have hconstant : constant? (.branch .constant .unset [.leaf t]) = some c := hc
    rcases sign with _ | _ | _
    · simp [signedConstant?, hconstant, hline]
    · simp [signedConstant?, hconstant, Sign.token, Sign.ofSymbol?]
    · simp [signedConstant?, hconstant, Sign.token, Sign.ofSymbol?]
  have hlist : ∀ v : Tree, signedConstant? v = some ⟨sign, c, 1⟩ → [v].mapM signedConstant? = some [⟨sign, c, 1⟩] := by
    intro v hv
    rw [List.mapM_cons, hv]
    rfl
  have hinitial : initialValues? (declVar sign t) = some (some [⟨sign, c, 1⟩]) := by
    show ([_].mapM signedConstant?).map some = _
    rw [hlist _ hvalue]
    rfl
  have hvar : varDecl? (.branch .declSpec .unset [declVar sign t]) = some ⟨.scalar "n", some [⟨sign, c, 1⟩], [], 1⟩ := by
    show (initialValues? (declVar sign t)).bind _ = _
    rw [hinitial]
    rfl
  have hdeclaration : declaration? (integerDecl 1 [declVar sign t]) = some ⟨"int", [⟨.scalar "n", some [⟨sign, c, 1⟩], [], 1⟩]⟩ := by
    show ([_].mapM varDecl?).bind _ = _
    rw [List.mapM_cons, hvar]
    rfl
  have hlocals : declarations? .localDecls
      (.branch .localDecls .unset [.branch .localDecls .unset [], integerDecl 1 [declVar sign t]]) =
      some [⟨"int", [⟨.scalar "n", some [⟨sign, c, 1⟩], [], 1⟩]⟩] := by
    show [_].mapM declaration? = _
    rw [List.mapM_cons, hdeclaration]
    rfl
  show (declarations? .localDecls _).bind _ = _
  rw [hlocals]
  rfl

/-- The declaration of `n` with an initial value. -/
def intDecl (c : SignedConstant) : VarDecl := ⟨.scalar "n", some [c], [], 1⟩

/-- The variable `n` with a default. -/
def intVariable (w : Value) : Variable := { Variable.scalar "n" "int" [] with initial := some [w] }

theorem ofDecl_intDecl [Library] (c : SignedConstant) : ofDecl "int" (intDecl c) = (convertConstant "int" c).map intVariable := by
  have hgiven : (some [c]).mapM (fun cs => cs.mapM (convertConstant "int")) = (convertConstant "int" c).map fun w => some [w] := by
    cases h : convertConstant "int" c <;> simp [Option.mapM, List.mapM_cons, h] <;> rfl
  have hdecl : ofDecl "int" (intDecl c) = (some [c]).mapM (fun cs => cs.mapM (convertConstant "int")) >>= fun given =>
      applyItems (.scalar "n" "int" []) given [] >>= fun r =>
        if capacity r.1 < r.2.length then
          .error (.atLine .syntactic 1 ("too many initial values for '" ++ r.1.name ++ "'"))
        else return { r.1 with initial := some (r.2 ++ List.replicate (capacity r.1 - r.2.length) .none) } := rfl
  rw [hdecl, hgiven]
  cases convertConstant "int" c <;> rfl

theorem ofHeader_intDecl [Library] (st : Settings) (c : SignedConstant) : (ofHeader st ⟨none, [], [⟨"int", [intDecl c]⟩]⟩).2 =
    empty.declare .inBody "int" (intDecl c) >>= fun s => s.finish st := by
  have hsignature : empty.enterSignature none = .ok empty := rfl
  have hentries : entries ⟨none, [], [⟨"int", [intDecl c]⟩]⟩ =
      ([(.inBody, "int", intDecl c)] : List (Scope.Place × Bytes × VarDecl)) := rfl
  rw [ofHeader, hsignature, hentries]
  dsimp only
  rw [declareAll]
  cases empty.declare .inBody "int" (intDecl c) <;> rfl

/-- Without arguments only an external list can be at fault, if it has the name of a local variable. -/
theorem exists_finish {st : Settings} {s : Scope} (hargs : s.args = [])
    (hexternal : ∀ ext ∈ st.external, ∀ l ∈ s.locals.vars, ext.params.has l.name = false) : ∃ s', s.finish st = .ok s' := by
  have hdeclared : s.undeclaredArg? = none := by rw [undeclaredArg?, hargs]; rfl
  rw [finish, hdeclared]
  dsimp only
  have hmerge (s' : Scope) (hlocals : s'.locals = s.locals) : ∃ s'', s'.mergeExternal st.external = .ok s'' := by
    cases hst : st.external with
    | none => exact ⟨s', rfl⟩
    | some ext =>
      have hnone : (s'.locals.vars.find? fun l => ext.params.has l.name) = none := by
        rw [List.find?_eq_none, hlocals]
        intro l hl
        simp [hexternal ext hst l hl]
      rw [mergeExternal]
      dsimp only
      rw [hnone]
      exact ⟨_, rfl⟩
  obtain ⟨s'', hs''⟩ := hmerge (if s.isProcedure then s else { s with procedure := scriptName st.filename }) (by split <;> rfl)
  rw [hs'']
  exact ⟨_, rfl⟩

/-- A script that declares nothing but `n` is accepted, and its default is its initial value. -/
theorem declarations_intDecl [Library] {st : Settings} (hexternal : ∀ ext ∈ st.external, ext.params.has "n" = false) {t : Tree}
    {c : SignedConstant} (ht : Header.ofTree? t = some ⟨none, [], [⟨"int", [intDecl c]⟩]⟩) {w : Value}
    (hw : convertConstant "int" c = .ok w) :
    ∃ s, (declarations st t).2 = .ok s ∧ s.lookup? "n" = some (withMode (intVariable w) "u") := by
  have hvariable : ofDecl "int" (intDecl c) = .ok (intVariable w) := by rw [ofDecl_intDecl, hw]; rfl
  obtain ⟨s₁, hdeclare, hargs, hlocals⟩ : ∃ s₁, empty.declare .inBody "int" (intDecl c) = .ok s₁ ∧ s₁.args = [] ∧
      s₁.locals = ⟨[withMode (intVariable w) "u"]⟩ := by
    obtain ⟨notes, hnotes⟩ := checkDefaults_eq { empty with locals := ⟨[withMode (intVariable w) "u"]⟩ } (intVariable w)
    rw [declare, hvariable]
    exact ⟨_, congrArg Except.ok hnotes, rfl, rfl⟩
  obtain ⟨s, hs⟩ : ∃ s, s₁.finish st = .ok s := by
    refine exists_finish hargs fun ext hext l hl => ?_
    rw [hlocals, List.mem_singleton] at hl
    rw [hl]
    exact hexternal ext hext
  have hscope : (ofHeader st ⟨none, [], [⟨"int", [intDecl c]⟩]⟩).2 = .ok s := by
    rw [ofHeader_intDecl, hdeclare]
    exact hs
  obtain ⟨vs, ls, own, haccepted⟩ := accepted_ofHeader hscope
  refine ⟨s, by rw [declarations, ht]; dsimp only; rw [hscope]; rfl, ?_⟩
  have hvs : vs = [] := (Except.ok.inj haccepted.described).symm
  obtain ⟨rfl, -⟩ := vars_enterAll haccepted.enterAll (by rw [hvs]; nofun)
  rw [hvs] at haccepted
  have hparams : s.params.get? "n" = none := by
    rw [haccepted.params, get?_supplied_of_not_has (has_merged_eq_false rfl hexternal)]
    rfl
  have hls : ls = [intVariable w] := by
    have hdescribed := haccepted.describedLocals
    have heq : describe [⟨"int", [intDecl c]⟩] = [("int", intDecl c)].mapM fun spec => ofDecl spec.1 spec.2 := rfl
    rw [heq, List.mapM_cons, hvariable] at hdescribed
    exact (Except.ok.inj hdescribed).symm
  rw [lookup?, hparams, haccepted.locals, hls]
  rfl

/-- The default of `n` is its initial value as an integer. -/
theorem defaultOf_eq [Library] {st : Settings} (hexternal : ∀ ext ∈ st.external, ext.params.has "n" = false) {source : Bytes}
    {sign : Option Sign} {t : Token Symbol} {c : Constant} (hc : Constant.ofToken? t = some c) (hline : c.line = 1)
    (htree : tree source = .ok (declTree sign t)) :
    defaultOf st source = ((convertConstant "int" ⟨sign, c, 1⟩).map some).mapError .failure := by
  have hheader : Header.ofTree? (declTree sign t) = some ⟨none, [], [⟨"int", [intDecl ⟨sign, c, 1⟩]⟩]⟩ :=
    ofTree?_declTree hc hline
  have hdefault : defaultOf st source = (declarations st (declTree sign t)).2 >>= fun scope =>
      return (scope.lookup? "n").map Variable.default := by rw [defaultOf, htree]; rfl
  rw [hdefault]
  cases hw : convertConstant "int" ⟨sign, c, 1⟩ with
  | ok w =>
    obtain ⟨s, hs, hlookup⟩ := declarations_intDecl hexternal hheader hw
    rw [hs]
    show Except.ok ((s.lookup? "n").map Variable.default) = _
    rw [hlookup]
    rfl
  | error f =>
    have hdeclare : empty.declare .inBody "int" (intDecl ⟨sign, c, 1⟩) = .error f := by
      rw [declare, ofDecl_intDecl, hw]
      rfl
    rw [declarations, hheader]
    dsimp only
    rw [ofHeader_intDecl, hdeclare]
    rfl

/-! ## Values -/

theorem signOf_literal (sign : Option Sign) {ds : Bytes} (hds : ∀ b ∈ ds, Bytes.isDigit b = true) :
    signOf ((sign.map (·.token.text)).getD [] ++ ds) = (decide (sign = some .minus), ds) := by
  rcases sign with _ | _ | _
  · refine signOf_of_head fun b hb => ?_
    have hb := hds b (List.mem_of_mem_head? hb)
    constructor <;> (rintro rfl; cases hb)
  · rfl
  · rfl

/-- A constant is read without its sign, which it takes afterwards. -/
theorem convert_literal (sign : Option Sign) {ds : Bytes} (hne : ds ≠ []) (hds : ∀ b ∈ ds, Bytes.isDigit b = true) :
    let n := signed 10 ((sign.map (·.token.text)).getD [] ++ ds)
    (-2 ^ 63 < n ∧ n < 2 ^ 63 → convertConstant "int" ⟨sign, ⟨.integer, ds, [], 1⟩, 1⟩ = .ok (.int (Int64.ofInt n))) ∧
      (¬ (-2 ^ 63 < n ∧ n < 2 ^ 63) →
        ∃ f, convertConstant "int" ⟨sign, ⟨.integer, ds, [], 1⟩, 1⟩ = .error f ∧ (Halt.failure f).kind? = some .conversion) := by
  have hsign := signOf_literal sign hds
  have hplain : signOf ds = (false, ds) := signOf_literal none hds
  have hread : int? 10 ds = if FitsInt64 (inBase 10 ds) then some (Int64.ofInt (inBase 10 ds)) else none := by
    have hvalue : signed 10 ds = inBase 10 ds := by rw [signed, hplain]; rfl
    rw [← hvalue]
    exact int?_eq (by rwa [hplain]) (by rw [hplain]; exact fun b hb => isSome_digit?_ten (hds b hb))
  have hfits : FitsInt64 (inBase 10 ds) ↔ inBase 10 ds < 2 ^ 63 := by rw [FitsInt64]; omega
  have hvalue : (Constant.mk .integer ds [] 1).value? = (int? 10 ds).map .int := rfl
  intro n
  have hn : n = if sign = some .minus then -(inBase 10 ds : Int) else inBase 10 ds := by
    simp only [n, signed, hsign, decide_eq_true_eq]
  have hrange : (-2 ^ 63 < n ∧ n < 2 ^ 63) ↔ inBase 10 ds < 2 ^ 63 := by rw [hn]; split <;> omega
  rw [hrange]
  refine ⟨fun h => ?_, fun h => ?_⟩
  · have hok : (Constant.mk .integer ds [] 1).value = .ok (.int (Int64.ofInt (inBase 10 ds))) := by
      rw [Constant.value, hvalue, hread, if_pos (hfits.mpr h)]
      rfl
    rw [hn, convertConstant, SignedConstant.value, hok]
    rcases sign with _ | _ | _
    · rfl
    · rfl
    · rw [if_pos rfl, Int64.ofInt_neg]
      rfl
  · have herror : ∃ f, (Constant.mk .integer ds [] 1).value = .error f ∧ (Halt.failure f).kind? = some .conversion := by
      rw [Constant.value, hvalue, hread, if_neg (mt hfits.mp h)]
      exact ⟨_, rfl, rfl⟩
    obtain ⟨f, hf, hkind⟩ := herror
    exact ⟨f, by rw [convertConstant, SignedConstant.value, hf]; rfl, hkind⟩

/-- Decimal digits behind a sign have nothing to trim. -/
theorem trim_signed {d : Bytes} (h : ∀ b ∈ d, (Bytes.isDigit b || b == 43 || b == 45) = true) : d.trim = d := by
  refine Bytes.trim_eq_self fun b hb => ?_
  have hbyte := Bytes.imp_byte (fun b => Bytes.isDigit b || b == 43 || b == 45) (fun b => b < 128 && !isBlank b.toNat)
    (by decide) (h b hb)
  simpa using hbyte

/-- A text is read with its sign. -/
theorem convert_quoted {d : Bytes} (hne : (signOf d).2 ≠ []) (hds : ∀ b ∈ (signOf d).2, Bytes.isDigit b = true)
    (htrim : d.trim = d) (hdefined : d ≠ "INDEF") :
    (FitsInt64 (signed 10 d) → convertConstant "int" ⟨none, ⟨.string, inQuotes d, d, 1⟩, 1⟩ = .ok (.int (Int64.ofInt (signed 10 d)))) ∧
      (¬ FitsInt64 (signed 10 d) →
        ∃ f, convertConstant "int" ⟨none, ⟨.string, inQuotes d, d, 1⟩, 1⟩ = .error f ∧ (Halt.failure f).kind? = some .conversion) := by
  have hread : int? 10 d = if FitsInt64 (signed 10 d) then some (Int64.ofInt (signed 10 d)) else none :=
    int?_eq hne fun b hb => isSome_digit?_ten (hds b hb)
  have hcoerce : Value.coerce? (TypeClass.ofType "int") (.string d) = (int? 10 d).map .int := by
    show (if d.trim = "INDEF" then _ else (int? 10 d.trim).map Value.int) = _
    rw [htrim, if_neg hdefined]
  have hconvert : convertConstant "int" ⟨none, ⟨.string, inQuotes d, d, 1⟩, 1⟩ =
      ((Value.string d).convert "int").mapError fun f => f.withLine 1 := by
    have hvalue : SignedConstant.value ⟨none, ⟨.string, inQuotes d, d, 1⟩, 1⟩ = .ok (.string d) := rfl
    rw [convertConstant, hvalue]
    cases h : (Value.string d).convert "int" <;> simp [h, bind, Except.bind] <;> rfl
  rw [hconvert, Value.convert, hcoerce, hread]
  refine ⟨fun h => ?_, fun h => ?_⟩
  · rw [if_pos h]
    rfl
  · rw [if_neg h]
    exact ⟨_, rfl, rfl⟩

/-! ## Defaults -/

section
variable {st : Settings}

theorem defaultOf_literal [Library] (hexternal : ∀ ext ∈ st.external, ext.params.has "n" = false) (sign : Option Sign) {ds : Bytes}
    (hne : ds ≠ []) (hds : ∀ b ∈ ds, Bytes.isDigit b = true) : defaultOf st (intSource ((sign.map (·.token.text)).getD [] ++ ds)) =
      ((convertConstant "int" ⟨sign, ⟨.integer, ds, [], 1⟩, 1⟩).map some).mapError .failure := by
  have hspace : ∀ b ∈ ((sign.map (·.token.text)).getD [] ++ ds).head?, isSpace b = false := by
    rcases sign with _ | _ | _
    · intro b hb
      have hnot := Bytes.imp_byte Bytes.isDigit (fun b => !isSpace b) (by decide) (hds b (List.mem_of_mem_head? hb))
      simpa using hnot
    · rintro _ ⟨⟩
      rfl
    · rintro _ ⟨⟩
      rfl
  have hlexed : Lexed ⟨.integer, ds, none, 1⟩ := Regex.matches_many1 rfl hne fun b hb => contains_digits (hds b hb)
  have htokens := tokenize_intSource hspace (by simp [hne]) fun p hdata hline => by
    rw [List.append_assoc]
    exact cuts_literal sign hne hds hdata hline
  exact defaultOf_eq hexternal rfl rfl (tree_intSource (.inl rfl) hlexed htokens)

theorem defaultOf_quoted [Library] (hexternal : ∀ ext ∈ st.external, ext.params.has "n" = false) {d : Bytes}
    (hd : ∀ b ∈ d, b ≠ 34 ∧ b ≠ 10 ∧ b ≠ 92) : defaultOf st (intSource (inQuotes d)) =
      ((convertConstant "int" ⟨none, ⟨.string, inQuotes d, d, 1⟩, 1⟩).map some).mapError .failure := by
  have hlexed : Lexed ⟨.string, inQuotes d, some d, 1⟩ := trivial
  have hspace : ∀ b ∈ (inQuotes d).head?, isSpace b = false := by
    rintro _ ⟨⟩
    rfl
  have htokens := tokenize_intSource hspace (List.cons_ne_nil _ _) fun p hdata hline => cuts_quoted hd hdata hline
  exact defaultOf_eq hexternal rfl rfl (tree_intSource (.inr rfl) hlexed htokens)

/-- A run that stops because a value does not convert. -/
def Misconverts {α : Type} (r : Except Halt α) : Prop := ∃ halt, r = .error halt ∧ halt.kind? = some .conversion

section
variable {d : Bytes}

theorem IsSigned.exists_sign (hd : IsSigned d) : ∃ (sign : Option Sign) (ds : Bytes),
    d = (sign.map (·.token.text)).getD [] ++ ds ∧ ds ≠ [] ∧ ∀ b ∈ ds, Bytes.isDigit b = true := by
  obtain ⟨text, htext, ds, rfl, hne, hds⟩ := hd
  simp only [List.mem_cons, List.not_mem_nil, or_false] at htext
  rcases htext with rfl | rfl | rfl
  · exact ⟨none, ds, rfl, hne, hds⟩
  · exact ⟨some .plus, ds, rfl, hne, hds⟩
  · exact ⟨some .minus, ds, rfl, hne, hds⟩

/-- A constant is the default of an integer if its magnitude is an integer. -/
theorem default_literal [Library] (hexternal : ∀ ext ∈ st.external, ext.params.has "n" = false) (hd : IsSigned d) :
    (-2 ^ 63 < signed 10 d ∧ signed 10 d < 2 ^ 63 →
      defaultOf st (intSource d) = .ok (some (.int (Int64.ofInt (signed 10 d))))) ∧
    (¬ (-2 ^ 63 < signed 10 d ∧ signed 10 d < 2 ^ 63) → Misconverts (defaultOf st (intSource d))) := by
  obtain ⟨sign, ds, rfl, hne, hds⟩ := hd.exists_sign
  obtain ⟨hsmall, hlarge⟩ := convert_literal sign hne hds
  rw [defaultOf_literal hexternal sign hne hds]
  refine ⟨fun h => ?_, fun h => ?_⟩
  · rw [hsmall h]
    rfl
  · obtain ⟨f, hf, hkind⟩ := hlarge h
    rw [hf]
    exact ⟨_, rfl, hkind⟩

/-- A text is the default of an integer if it is the text of an integer. -/
theorem default_quoted [Library] (hexternal : ∀ ext ∈ st.external, ext.params.has "n" = false) (hd : IsSigned d) :
    (FitsInt64 (signed 10 d) → defaultOf st (intSource (inQuotes d)) = .ok (some (.int (Int64.ofInt (signed 10 d))))) ∧
    (¬ FitsInt64 (signed 10 d) → Misconverts (defaultOf st (intSource (inQuotes d)))) := by
  obtain ⟨sign, ds, rfl, hne, hds⟩ := hd.exists_sign
  have hbytes : ∀ b ∈ (sign.map (·.token.text)).getD [] ++ ds, (Bytes.isDigit b || b == 43 || b == 45) = true := by
    rw [List.forall_mem_append]
    refine ⟨?_, fun b hb => by rw [hds b hb]; rfl⟩
    rcases sign with _ | _ | _
    · exact List.forall_mem_nil _
    · exact List.forall_mem_singleton.mpr rfl
    · exact List.forall_mem_singleton.mpr rfl
  have hplain : ∀ b ∈ (sign.map (·.token.text)).getD [] ++ ds, b ≠ 34 ∧ b ≠ 10 ∧ b ≠ 92 := fun b hb => by
    refine ⟨?_, ?_, ?_⟩ <;> (rintro rfl; cases hbytes _ hb)
  have hdefined : (sign.map (·.token.text)).getD [] ++ ds ≠ "INDEF" := fun h => by
    have hI := hbytes 73 (by rw [h]; decide)
    cases hI
  have hsign := signOf_literal sign hds
  obtain ⟨hsmall, hlarge⟩ := convert_quoted (by rwa [hsign]) (by rwa [hsign]) (trim_signed hbytes) hdefined
  rw [defaultOf_quoted hexternal hplain]
  refine ⟨fun h => ?_, fun h => ?_⟩
  · rw [hsmall h]
    rfl
  · obtain ⟨f, hf, hkind⟩ := hlarge h
    rw [hf]
    exact ⟨_, rfl, hkind⟩

/-- A number gives an integer the same default whether it is a constant or a text between quotes, and none if it does not fit
64 bits. Only the least integer is a default as a text and none as a constant. -/
theorem default_signed [Library] (hexternal : ∀ ext ∈ st.external, ext.params.has "n" = false) (hd : IsSigned d) :
    (-2 ^ 63 < signed 10 d ∧ signed 10 d < 2 ^ 63 → ∃ i : Int64, i.toInt = signed 10 d ∧
      defaultOf st (intSource d) = .ok (some (.int i)) ∧ defaultOf st (intSource (inQuotes d)) = .ok (some (.int i))) ∧
    (signed 10 d = -2 ^ 63 → Misconverts (defaultOf st (intSource d)) ∧
      ∃ i : Int64, i.toInt = -2 ^ 63 ∧ defaultOf st (intSource (inQuotes d)) = .ok (some (.int i))) ∧
    (signed 10 d < -2 ^ 63 ∨ 2 ^ 63 ≤ signed 10 d →
      Misconverts (defaultOf st (intSource d)) ∧ Misconverts (defaultOf st (intSource (inQuotes d)))) := by
  obtain ⟨hliteral, hnotLiteral⟩ := default_literal hexternal hd
  obtain ⟨hquoted, hnotQuoted⟩ := default_quoted hexternal hd
  generalize signed 10 d = n at *
  refine ⟨fun h => ?_, fun h => ?_, fun h => ?_⟩
  · have hfits : FitsInt64 n := ⟨h.1.le, h.2⟩
    exact ⟨_, Int64.toInt_ofInt_of_le hfits.1 hfits.2, hliteral h, hquoted hfits⟩
  · have hfits : FitsInt64 n := by rw [h]; decide
    exact ⟨hnotLiteral (by omega), _, (Int64.toInt_ofInt_of_le hfits.1 hfits.2).trans h, hquoted hfits⟩
  · exact ⟨hnotLiteral (by omega), hnotQuoted (by rw [FitsInt64]; omega)⟩

end

theorem external_default : ∀ ext ∈ ({} : Settings).external, ext.params.has "n" = false := by rintro _ ⟨⟩

/-- Leading zeros and a plus sign make no difference. -/
theorem default_signed_zeros : IsSigned "+007" ∧ ∃ i : Int64, i.toInt = 7 ∧
    defaultOf {} (intSource "+007") = .ok (some (.int i)) ∧ defaultOf {} (intSource "\"+007\"") = .ok (some (.int i)) := by
  have hd : IsSigned "+007" := ⟨"+", by decide, "007", rfl, List.cons_ne_nil _ _, List.all_eq_true.mp rfl⟩
  have hn : signed 10 "+007" = 7 := by decide
  obtain ⟨i, hi, hliteral, hquoted⟩ := (default_signed external_default hd).1 (by rw [hn]; decide)
  exact ⟨hd, i, hi.trans hn, hliteral, hquoted⟩

/-- The least integer is the default of an integer as a text only. -/
theorem not_default_least : ¬ ∀ d, IsSigned d →
    Misconverts (defaultOf {} (intSource d)) ∧ Misconverts (defaultOf {} (intSource (inQuotes d))) ∨
    ∃ i : Int64, defaultOf {} (intSource d) = .ok (some (.int i)) ∧ defaultOf {} (intSource (inQuotes d)) = .ok (some (.int i)) := by
  let least : Bytes := "-9223372036854775808"
  have hd : IsSigned least := ⟨"-", by decide, "9223372036854775808", rfl, List.cons_ne_nil _ _, List.all_eq_true.mp rfl⟩
  have hn : signed 10 least = -2 ^ 63 := by decide
  obtain ⟨halt, hliteral, -⟩ := (default_literal external_default hd).2 (by rw [hn]; decide)
  have hquoted := (default_quoted external_default hd).1 (by rw [hn]; decide)
  intro h
  rcases h least hd with ⟨-, _, hfails, -⟩ | ⟨i, hgives, -⟩
  · rw [hquoted] at hfails
    cases hfails
  · rw [hliteral] at hgives
    cases hgives

end

end IrafCl.Script
