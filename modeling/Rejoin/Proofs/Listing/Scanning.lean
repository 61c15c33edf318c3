import Mathlib.Data.List.TakeWhile
import Rejoin.Listing.Lexer
import Rejoin.Proofs.Text.Numeral

/-!
# Lexemes and longest match

The lexical rules of listings, stated without regard to how a text is scanned. `IsLexeme` says which
texts are blanks, comments and tokens. `IsLongest` picks, among the lexemes a text starts with, the
longest one, and a fixed token before a word of the same spelling. `Scans` cuts a whole text into
such lexemes, drops blanks and comments, and records the bytes of each token; it stops where no
lexeme starts. The lexer computes just this: `scans_iff`.
-/

namespace Rejoin.Listing

/-! ## The lexical rules -/

/-- A word is a letter or an underscore, followed by letters, digits, underscores and dots. -/
def IsWord (word : List Char) : Prop :=
  ∃ c rest, word = c :: rest ∧ isWordStart c = true ∧ ∀ d ∈ rest, isWordChar d = true

/-- The tokens that are written in one way only. -/
def fixedTokens : List (String × Token) :=
  [(",", .comma), ("->", .arrow), ("br", .br), ("func", .func), ("jmp", .jmp), ("ret", .ret),
    ("\x7b", .opening), ("\x7d", .closing)]

/-- A text is a lexeme: a token, or something to be dropped. A word may be a fixed token as
well. -/
inductive IsLexeme : List Char → Option Token → Prop
  /-- Blanks are dropped. -/
  | blanks {text : List Char} : text ≠ [] → (∀ c ∈ text, isGapChar c = true) → IsLexeme text none
  /-- A comment is dropped together with the ends of lines that follow it. -/
  | comment {body ends : List Char} : (∀ c ∈ body, isCommentChar c = true) →
      (∀ c ∈ ends, isCommentChar c = false) → IsLexeme ('/' :: '/' :: (body ++ ends)) none
  /-- Punctuation and the four reserved words. -/
  | fixed {text : String} {token : Token} : (text, token) ∈ fixedTokens →
      IsLexeme text.toList (some token)
  /-- A value name. -/
  | value {body : List Char} : body ≠ [] → (∀ c ∈ body, isWordChar c = true) →
      IsLexeme ('%' :: body) (some (.value (String.ofList ('%' :: body))))
  /-- A symbol name. -/
  | symbol {body : List Char} : body ≠ [] → (∀ c ∈ body, isWordChar c = true) →
      IsLexeme ('@' :: body) (some (.symbol (String.ofList ('@' :: body))))
  /-- An integer literal without a sign. -/
  | int {digits : List Char} {n : Nat} : Spells 10 digits n → IsLexeme digits (some (.int n))
  /-- An integer literal with a minus sign. -/
  | negInt {digits : List Char} {n : Nat} : Spells 10 digits n →
      IsLexeme ('-' :: digits) (some (.int (-n)))
  /-- A word. -/
  | ident {word : List Char} : IsWord word → IsLexeme word (some (.ident (String.ofList word)))
  /-- A word with a colon behind it. -/
  | label {word : List Char} : IsWord word →
      IsLexeme (word ++ [':']) (some (.label (String.ofList word)))

/-- A token is not a word where it could be a fixed token. -/
def Prefers (token : Token) : Prop :=
  ∀ name, token = .ident name → ∀ entry ∈ fixedTokens, entry.1 ≠ name

/-- The lexeme is the one to be taken at the head of a text. -/
structure IsLongest (text lexeme : List Char) (what : Option Token) : Prop where
  /-- It is a lexeme. -/
  isLexeme : IsLexeme lexeme what
  /-- The text starts with it. -/
  starts : lexeme <+: text
  /-- No longer lexeme stands there. -/
  longest : ∀ other kind, IsLexeme other kind → other <+: text → other.length ≤ lexeme.length
  /-- Reserved words go before other words. -/
  prefers : ∀ token, what = some token → Prefers token

/-- The tokens of a text whose first character is at byte `position`, and what ends them. -/
inductive Scans : Nat → List Char → List (Spanned Token) → Ending → Prop
  /-- The text is used up. -/
  | done (position : Nat) : Scans position [] [] .complete
  /-- No lexeme starts here. -/
  | stuck {position : Nat} {text : List Char} : text ≠ [] →
      (∀ lexeme what, IsLexeme lexeme what → ¬lexeme <+: text) →
      Scans position text [] (.invalid position)
  /-- Blanks and comments are dropped. -/
  | skip {position : Nat} {lexeme rest : List Char} {tokens : List (Spanned Token)}
      {ending : Ending} : IsLongest (lexeme ++ rest) lexeme none →
      Scans (position + byteLength lexeme) rest tokens ending →
      Scans position (lexeme ++ rest) tokens ending
  /-- A token is recorded with its bytes. -/
  | token {position : Nat} {lexeme rest : List Char} {token : Token}
      {tokens : List (Spanned Token)} {ending : Ending} :
      IsLongest (lexeme ++ rest) lexeme (some token) →
      Scans (position + byteLength lexeme) rest tokens ending →
      Scans position (lexeme ++ rest)
        (⟨token, ⟨position, position + byteLength lexeme⟩⟩ :: tokens) ending

/-! ## Characters -/

theorem isWordChar_of_isWordStart {c : Char} (h : isWordStart c = true) : isWordChar c = true := by
  simp only [isWordStart, isWordChar, Char.isAlphanum, Bool.or_eq_true] at h ⊢
  tauto

theorem isWordChar_of_isDigit {c : Char} (h : c.isDigit = true) : isWordChar c = true := by
  simp [isWordChar, Char.isAlphanum, h]

/-- No word starts with a digit. -/
theorem isDigit_of_isWordStart {c : Char} (h : isWordStart c = true) : c.isDigit = false := by
  have hstart : (c.isUpper || c.isLower || c == '_') = true := h
  simp only [Bool.or_eq_true, beq_iff_eq] at hstart
  rw [Bool.eq_false_iff]
  intro hdigit
  -- digits are numbered below all letters and below the underscore
  have hnine : c.toNat ≤ 57 := (Char.isDigit_iff_toNat.mp hdigit).2
  rcases hstart with (hupper | hlower) | rfl
  · have hle : 'A'.val ≤ c.val := (of_decide_eq_true hupper).1
    have : 65 ≤ c.toNat := UInt32.le_iff_toNat_le.mp hle
    omega
  · have hle : 'a'.val ≤ c.val := of_decide_eq_true ((Bool.and_eq_true _ _).mp hlower).1
    have : 97 ≤ c.toNat := UInt32.le_iff_toNat_le.mp hle
    omega
  · cases hdigit

/-- A word is made of word characters, its first one included. -/
theorem IsWord.isWordChar {word : List Char} (h : IsWord word) :
    ∀ c ∈ word, isWordChar c = true := by
  obtain ⟨c, rest, rfl, hc, hrest⟩ := h
  exact List.forall_mem_cons.mpr ⟨isWordChar_of_isWordStart hc, hrest⟩

/-- The blanks, one by one. -/
def blanks : List Char := [' ', '\t', '\r', '\n']

theorem isGapChar_iff {c : Char} : isGapChar c = true ↔ c ∈ blanks := by
  simp [isGapChar, blanks, or_assoc]

/-- The characters that decide alone, or with the next one, what lexeme they start. -/
def signs : List Char := [',', '\x7b', '\x7d', '-', '/', '%', '@']

/-- A class of characters has none of a short list, each of which has been tried. -/
theorem not_mem_of_class {p : Char → Bool} {excluded : List Char}
    (hp : excluded.all (fun c => !p c) = true) {c : Char} (h : p c = true) : c ∉ excluded := by
  intro hmem
  have hc := List.all_eq_true.mp hp c hmem
  rw [h] at hc
  cases hc

theorem isGapChar_of_isWordChar {c : Char} (h : isWordChar c = true) : isGapChar c = false := by
  rw [Bool.eq_false_iff, ne_eq, isGapChar_iff]
  exact not_mem_of_class (by decide) h

/-- A comment stops at a blank that ends its line. -/
theorem isGapChar_of_isCommentChar_eq_false {c : Char} (h : isCommentChar c = false) :
    isGapChar c = true := by
  simp only [isCommentChar, Bool.and_eq_false_iff, bne_eq_false_iff_eq] at h
  rcases h with rfl | rfl
  · rfl
  · rfl

/-! ## What the lexer takes at a lexeme -/

variable {text rest lexeme : List Char}

/-- What is taken at a character that is no sign. -/
theorem lexeme?_cons {c : Char} (h : c ∉ signs) (rest : List Char) :
    lexeme? (c :: rest) =
      if isGapChar c then some (.gap 1)
      else if c.isDigit then integer? [] (c :: rest)
      else if isWordStart c then some (wordLexeme (c :: rest))
      else none := by
  simp only [signs, List.mem_cons, List.not_mem_nil, or_false, not_or] at h
  unfold lexeme?
  split <;> simp_all

/-- One blank is dropped at a time. -/
theorem lexeme?_blank {c : Char} (h : isGapChar c = true) (rest : List Char) :
    lexeme? (c :: rest) = some (.gap 1) := by
  rw [lexeme?_cons (not_mem_of_class (p := isGapChar) (by decide) h), if_pos h]

theorem lexeme?_digit {c : Char} (h : c.isDigit = true) (rest : List Char) :
    lexeme? (c :: rest) = integer? [] (c :: rest) := by
  rw [lexeme?_cons (not_mem_of_class (by decide) h),
    isGapChar_of_isWordChar (isWordChar_of_isDigit h)]
  simp [h]

theorem lexeme?_word {word : List Char} (h : IsWord word) (rest : List Char) :
    lexeme? (word ++ rest) = some (wordLexeme (word ++ rest)) := by
  obtain ⟨c, tail, rfl, hc, -⟩ := h
  rw [List.cons_append, lexeme?_cons (not_mem_of_class (by decide) hc),
    isGapChar_of_isWordChar (isWordChar_of_isWordStart hc), isDigit_of_isWordStart hc]
  simp [hc]

/-- A minus sign in front of a digit belongs to an integer, and not to an arrow. -/
theorem lexeme?_minus {c : Char} (h : c.isDigit = true) (rest : List Char) :
    lexeme? ('-' :: c :: rest) = integer? ['-'] (c :: rest) := by
  have hc : c ≠ '>' := by
    rintro rfl
    exact absurd h (by decide)
  simp [lexeme?, hc]

/-- A word that no fixed token spells is an identifier. -/
theorem wordToken_of_prefers {word : List Char} (h : Prefers (.ident (String.ofList word))) :
    wordToken word = .ident (String.ofList word) := by
  have hne := h _ rfl
  simp only [fixedTokens, List.forall_mem_cons] at hne
  unfold wordToken
  simp only [hne.2.2.1.symm, hne.2.2.2.1.symm, hne.2.2.2.2.1.symm, hne.2.2.2.2.2.1.symm, if_false]

/-- The token of a word is reserved where it can be. -/
theorem prefers_wordToken {word : List Char} (h : IsWord word) : Prefers (wordToken word) := by
  intro name hname entry hentry heq
  unfold wordToken at hname
  dsimp only at hname
  split_ifs at hname with hbr hfunc hjmp hret
  obtain rfl : String.ofList word = name := Token.ident.inj hname
  -- a word is no punctuation, so it would have to be reserved
  have hreserved : ∀ entry ∈ fixedTokens, isWordStart (entry.1.toList.headD ' ') = true →
      entry.1 ∈ ["br", "func", "jmp", "ret"] := by decide +kernel
  obtain ⟨c, rest, rfl, hc, -⟩ := h
  have hmem := hreserved entry hentry (by rw [heq, String.toList_ofList]; exact hc)
  rw [heq] at hmem
  simp_all

/-- The lexer takes a token that is at least as long as a lexeme it stands at, and just the token
of the lexeme if it is no longer. -/
def TakesAt (text lexeme : List Char) (token : Token) : Prop :=
  ∃ taken n, lexeme? text = some (.token taken n) ∧ lexeme.length ≤ n ∧
    (n = lexeme.length → taken = token)

/-- At a word the lexer takes this word, a longer one, or a label. -/
theorem takesAt_word {word : List Char} (h : IsWord word) (rest : List Char) :
    TakesAt (word ++ rest) word (wordToken word) := by
  have hall := h.isWordChar
  unfold TakesAt
  rw [lexeme?_word h, wordLexeme, List.takeWhile_append_of_pos hall,
    List.dropWhile_append_of_pos hall]
  split
  · exact ⟨_, _, rfl, by simp; omega, by simp; omega⟩
  · refine ⟨_, _, rfl, by simp, fun hlength => ?_⟩
    -- the same length, so no further word character stands behind
    have hnil : rest.takeWhile isWordChar = [] := by simpa using hlength
    rw [hnil, List.append_nil]

/-- At a label the lexer takes the label: a colon ends the word before it. -/
theorem takesAt_label {word : List Char} (h : IsWord word) (rest : List Char) :
    TakesAt (word ++ [':'] ++ rest) (word ++ [':']) (.label (String.ofList word)) := by
  have hcolon : (':' :: rest).takeWhile isWordChar = [] := by
    rw [List.takeWhile_cons_of_neg (by decide)]
  have hall := h.isWordChar
  unfold TakesAt
  rw [List.append_assoc, lexeme?_word h, wordLexeme, List.takeWhile_append_of_pos hall,
    List.dropWhile_append_of_pos hall, List.singleton_append, hcolon,
    List.dropWhile_cons_of_neg (by decide)]
  exact ⟨_, _, rfl, by simp, fun _ => by simp⟩

/-- At a sign and a name the lexer takes them, or the same sign and a longer name. -/
theorem takesAt_signedName {make : String → Token} {sign : Char} {body : List Char}
    (hlexeme : ∀ rest, lexeme? (sign :: rest) = signedName? make sign rest)
    (hne : body ≠ []) (hbody : ∀ c ∈ body, isWordChar c = true) (rest : List Char) :
    TakesAt (sign :: body ++ rest) (sign :: body) (make (String.ofList (sign :: body))) := by
  unfold TakesAt
  rw [List.cons_append, hlexeme, signedName?, List.takeWhile_append_of_pos hbody]
  split
  next hnil => exact absurd (List.append_eq_nil_iff.mp hnil).1 hne
  next =>
    refine ⟨_, _, rfl, by simp, fun hlength => ?_⟩
    have hnil : rest.takeWhile isWordChar = [] := by simpa using hlength
    rw [hnil, List.append_nil]

/-- At an integer the lexer takes it, or one with more digits. The sign has been read before. -/
theorem takesAt_integer (sign : List Char) {digits : List Char} {value : Nat → Int} {n : Nat}
    (hread : ∀ ds m, Spells 10 ds m → readInt? (sign ++ ds) = some (value m))
    (h : Spells 10 digits n) (rest : List Char)
    (hlexeme : lexeme? (sign ++ digits ++ rest) = integer? sign (digits ++ rest)) :
    TakesAt (sign ++ digits ++ rest) (sign ++ digits) (.int (value n)) := by
  have hall := h.isDigit
  have hmore : ∀ c ∈ digits ++ rest.takeWhile Char.isDigit, c.isDigit = true := by
    intro c hc
    rcases List.mem_append.mp hc with hc | hc
    · exact hall c hc
    · exact List.mem_takeWhile_imp hc
  obtain ⟨m, hm⟩ := exists_spells_of_isDigit (by simp [h.1]) hmore
  unfold TakesAt
  rw [hlexeme, integer?, List.takeWhile_append_of_pos hall]
  refine ⟨.int (value m), _, by rw [hread _ m hm]; rfl, by simp, fun hlength => ?_⟩
  have hnil : rest.takeWhile Char.isDigit = [] := by simpa using hlength
  rw [hnil, List.append_nil] at hm
  rw [h.unique hm]

private theorem readInt?_minus {digits : List Char} {n : Nat} (h : Spells 10 digits n) :
    readInt? (['-'] ++ digits) = some (-(n : Int)) := by
  rw [List.singleton_append, readInt?, readDigits?_eq_some_iff.mpr h]
  rfl

private theorem readInt?_plain {digits : List Char} {n : Nat} (h : Spells 10 digits n) :
    readInt? ([] ++ digits) = some (n : Int) := by
  rw [List.nil_append, readInt?_digits h.isDigit, readDigits?_eq_some_iff.mpr h]
  rfl

/-- At every token the lexer takes a token. -/
theorem IsLexeme.takesAt {token : Token} (h : IsLexeme lexeme (some token)) (rest : List Char) :
    ∃ other, TakesAt (lexeme ++ rest) lexeme other ∧ (Prefers token → other = token) := by
  generalize hwhat : some token = what at h
  cases h with
  | blanks | comment => cases hwhat
  | @fixed text _ hmem =>
    obtain rfl := Option.some.inj hwhat
    refine ⟨token, ?_, fun _ => rfl⟩
    simp only [fixedTokens, List.mem_cons, Prod.mk.injEq, List.not_mem_nil, or_false] at hmem
    -- punctuation is taken as it is, and the reserved words are words
    rcases hmem with ⟨rfl, rfl⟩ | ⟨rfl, rfl⟩ | ⟨rfl, rfl⟩ | ⟨rfl, rfl⟩ | ⟨rfl, rfl⟩ | ⟨rfl, rfl⟩ |
      ⟨rfl, rfl⟩ | ⟨rfl, rfl⟩
    · exact ⟨_, _, rfl, le_rfl, fun _ => rfl⟩
    · exact ⟨_, _, rfl, le_rfl, fun _ => rfl⟩
    · exact takesAt_word ⟨'b', ['r'], rfl, by decide, List.all_eq_true.mp (by decide)⟩ rest
    · exact takesAt_word ⟨'f', ['u', 'n', 'c'], rfl, by decide, List.all_eq_true.mp (by decide)⟩
        rest
    · exact takesAt_word ⟨'j', ['m', 'p'], rfl, by decide, List.all_eq_true.mp (by decide)⟩ rest
    · exact takesAt_word ⟨'r', ['e', 't'], rfl, by decide, List.all_eq_true.mp (by decide)⟩ rest
    · exact ⟨_, _, rfl, le_rfl, fun _ => rfl⟩
    · exact ⟨_, _, rfl, le_rfl, fun _ => rfl⟩
  | value hne hbody =>
    obtain rfl := Option.some.inj hwhat
    exact ⟨_, takesAt_signedName (fun _ => rfl) hne hbody rest, fun _ => rfl⟩
  | symbol hne hbody =>
    obtain rfl := Option.some.inj hwhat
    exact ⟨_, takesAt_signedName (fun _ => rfl) hne hbody rest, fun _ => rfl⟩
  | int hspells =>
    obtain rfl := Option.some.inj hwhat
    refine ⟨_, takesAt_integer [] (fun _ _ => readInt?_plain) hspells rest ?_, fun _ => rfl⟩
    cases lexeme with
    | nil => exact absurd rfl hspells.1
    | cons c digits => exact lexeme?_digit (hspells.isDigit c List.mem_cons_self) _
  | @negInt digits n hspells =>
    obtain rfl := Option.some.inj hwhat
    refine ⟨_, takesAt_integer ['-'] (fun _ _ => readInt?_minus) hspells rest ?_, fun _ => rfl⟩
    cases digits with
    | nil => exact absurd rfl hspells.1
    | cons c digits => exact lexeme?_minus (hspells.isDigit c List.mem_cons_self) _
  | ident hword =>
    obtain rfl := Option.some.inj hwhat
    exact ⟨_, takesAt_word hword rest, wordToken_of_prefers⟩
  | label hword =>
    obtain rfl := Option.some.inj hwhat
    exact ⟨_, takesAt_label hword rest, fun _ => rfl⟩

/-- At everything to be dropped the lexer takes a gap. -/
theorem IsLexeme.gap (h : IsLexeme lexeme none) (rest : List Char) :
    ∃ n, lexeme? (lexeme ++ rest) = some (.gap n) := by
  generalize hwhat : (none : Option Token) = what at h
  cases h with
  | blanks hne hall =>
    cases lexeme with
    | nil => exact absurd rfl hne
    | cons c tail => exact ⟨1, lexeme?_blank (hall c List.mem_cons_self) _⟩
  | comment => exact ⟨_, rfl⟩
  | fixed | value | symbol | int | negInt | ident | label => cases hwhat

/-! ## What the lexer takes is a lexeme -/

/-- A token of this many characters stands at the head of a text. -/
def StandsAt (text : List Char) (token : Token) (n : Nat) : Prop :=
  ∃ lexeme rest, text = lexeme ++ rest ∧ lexeme.length = n ∧ IsLexeme lexeme (some token) ∧
    Prefers token

/-- What is taken for an integer is one. A sign alone is no integer, so digits follow it. -/
theorem standsAt_of_integer? {sign text : List Char} {value : Nat → Int} {token : Token} {n : Nat}
    (hread : ∀ ds m, Spells 10 ds m → readInt? (sign ++ ds) = some (value m))
    (hsign : readInt? sign = none)
    (hlexeme : ∀ ds m, Spells 10 ds m → IsLexeme (sign ++ ds) (some (.int (value m))))
    (h : integer? sign text = some (.token token n)) : StandsAt (sign ++ text) token n := by
  obtain ⟨v, hv, heq⟩ := Option.map_eq_some_iff.mp h
  obtain ⟨rfl, rfl⟩ := Lexeme.token.inj heq
  have hne : text.takeWhile Char.isDigit ≠ [] := by
    intro hnil
    rw [hnil, List.append_nil, hsign] at hv
    cases hv
  obtain ⟨m, hm⟩ := exists_spells_of_isDigit hne fun c hc => List.mem_takeWhile_imp hc
  rw [hread _ m hm] at hv
  obtain rfl := Option.some.inj hv
  refine ⟨sign ++ text.takeWhile Char.isDigit, text.dropWhile Char.isDigit, ?_,
    List.length_append, hlexeme _ m hm, fun name hname => by cases hname⟩
  rw [List.append_assoc, List.takeWhile_append_dropWhile]

/-- What is taken for a signed name is one. -/
theorem standsAt_of_signedName? {make : String → Token} {sign : Char} {text : List Char}
    {token : Token} {n : Nat} (hmake : ∀ name other, make name ≠ .ident other)
    (hlexeme : ∀ body, body ≠ [] → (∀ c ∈ body, isWordChar c = true) →
      IsLexeme (sign :: body) (some (make (String.ofList (sign :: body)))))
    (h : signedName? make sign text = some (.token token n)) :
    StandsAt (sign :: text) token n := by
  unfold signedName? at h
  split at h
  next => cases h
  next hne =>
    obtain ⟨rfl, rfl⟩ := Lexeme.token.inj (Option.some.inj h)
    refine ⟨sign :: text.takeWhile isWordChar, text.dropWhile isWordChar, ?_, List.length_cons,
      hlexeme _ hne fun c hc => List.mem_takeWhile_imp hc,
      fun name hname => absurd hname (hmake _ _)⟩
    rw [List.cons_append, List.takeWhile_append_dropWhile]

/-- A word is the lexeme of the token it is taken for. -/
theorem IsWord.isLexeme {word : List Char} (h : IsWord word) :
    IsLexeme word (some (wordToken word)) := by
  have hfixed : ∀ text token, (text, token) ∈ fixedTokens → String.ofList word = text →
      IsLexeme word (some token) := by
    rintro _ token hmem rfl
    have hlexeme := IsLexeme.fixed hmem
    rwa [String.toList_ofList] at hlexeme
  unfold wordToken
  dsimp only
  split_ifs with hbr hfunc hjmp hret
  · exact hfixed "br" .br (by decide) hbr
  · exact hfixed "func" .func (by decide) hfunc
  · exact hfixed "jmp" .jmp (by decide) hjmp
  · exact hfixed "ret" .ret (by decide) hret
  · exact .ident h

/-- What is taken at the start of a word is a word or a label. -/
theorem standsAt_of_wordLexeme {c : Char} {tail : List Char} {token : Token} {n : Nat}
    (hc : isWordStart c = true) (h : wordLexeme (c :: tail) = .token token n) :
    StandsAt (c :: tail) token n := by
  have hword : IsWord ((c :: tail).takeWhile isWordChar) := by
    rw [List.takeWhile_cons_of_pos (isWordChar_of_isWordStart hc)]
    exact ⟨c, _, rfl, hc, fun d hd => List.mem_takeWhile_imp hd⟩
  have hsplit := List.takeWhile_append_dropWhile (p := isWordChar) (l := c :: tail)
  unfold wordLexeme at h
  dsimp only at h
  split at h
  next rest hrest =>
    obtain ⟨rfl, rfl⟩ := Lexeme.token.inj h
    refine ⟨(c :: tail).takeWhile isWordChar ++ [':'], rest, ?_, by simp, .label hword,
      fun name hname => by cases hname⟩
    rw [List.append_assoc, List.singleton_append, ← hrest, hsplit]
  next =>
    obtain ⟨rfl, rfl⟩ := Lexeme.token.inj h
    exact ⟨(c :: tail).takeWhile isWordChar, _, hsplit.symm, rfl, hword.isLexeme,
      prefers_wordToken hword⟩

/-- What the lexer takes for a token stands at the head of the text. -/
theorem standsAt_of_lexeme? {token : Token} {n : Nat}
    (h : lexeme? text = some (.token token n)) : StandsAt text token n := by
  -- the four marks of punctuation are read in one way
  have hpunctuation : ∀ (mark : String) (tail : List Char) (t : Token),
      Lexeme.token t mark.toList.length = .token token n → (mark, t) ∈ fixedTokens →
      (∀ name, t ≠ .ident name) → StandsAt (mark.toList ++ tail) token n := by
    intro mark tail t heq hmem hne
    obtain ⟨rfl, rfl⟩ := Lexeme.token.inj heq
    exact ⟨mark.toList, tail, rfl, rfl, .fixed hmem, fun name hname => absurd hname (hne name)⟩
  unfold lexeme? at h
  split at h
  case h_1 => cases h
  case h_2 tail => exact hpunctuation "," tail _ (Option.some.inj h) (by decide) (by simp)
  case h_3 tail => exact hpunctuation "\x7b" tail _ (Option.some.inj h) (by decide) (by simp)
  case h_4 tail => exact hpunctuation "\x7d" tail _ (Option.some.inj h) (by decide) (by simp)
  case h_5 tail => exact hpunctuation "->" tail _ (Option.some.inj h) (by decide) (by simp)
  case h_6 tail _ =>
    exact standsAt_of_integer? (fun _ _ => readInt?_minus) rfl (fun _ _ => IsLexeme.negInt) h
  case h_7 tail => cases h
  case h_8 tail => exact standsAt_of_signedName? (by simp) (fun _ => IsLexeme.value) h
  case h_9 tail => exact standsAt_of_signedName? (by simp) (fun _ => IsLexeme.symbol) h
  case h_10 c tail _ _ _ _ _ _ _ _ =>
    split_ifs at h with hgap hdigit hstart
    · cases h
    · exact standsAt_of_integer? (fun _ _ => readInt?_plain) rfl (fun _ _ => IsLexeme.int) h
    · exact standsAt_of_wordLexeme hstart (Option.some.inj h)

/-- What the lexer drops at once is one blank, or a comment up to the end of its line. -/
theorem gap_cases {n : Nat} (h : lexeme? text = some (.gap n)) :
    (n = 1 ∧ ∃ c tail, text = c :: tail ∧ isGapChar c = true) ∨
      ∃ tail, text = '/' :: '/' :: tail ∧ n = (tail.takeWhile isCommentChar).length + 2 := by
  -- everything but blanks and comments gives a token
  have hinteger : ∀ sign rest, integer? sign rest ≠ some (.gap n) := by
    intro sign rest heq
    obtain ⟨_, -, heq⟩ := Option.map_eq_some_iff.mp heq
    cases heq
  have hname : ∀ make sign rest, signedName? make sign rest ≠ some (.gap n) := by
    intro make sign rest heq
    unfold signedName? at heq
    split at heq <;> cases heq
  have hword : ∀ rest, wordLexeme rest ≠ .gap n := by
    intro rest heq
    unfold wordLexeme at heq
    dsimp only at heq
    split at heq <;> cases heq
  unfold lexeme? at h
  split at h
  case h_1 | h_2 | h_3 | h_4 | h_5 => cases h
  case h_6 => exact absurd h (hinteger _ _)
  case h_7 tail =>
    cases h
    exact .inr ⟨tail, rfl, rfl⟩
  case h_8 | h_9 => exact absurd h (hname _ _ _)
  case h_10 c tail _ _ _ _ _ _ _ _ =>
    split_ifs at h with hgap hdigit hstart
    · cases h
      exact .inl ⟨rfl, c, tail, rfl, hgap⟩
    · exact absurd h (hinteger _ _)
    · exact absurd (Option.some.inj h) (hword _)

/-! ## Longest lexemes -/

/-- No lexeme is empty, so scanning advances. -/
theorem IsLexeme.ne_nil {what : Option Token} (h : IsLexeme lexeme what) : lexeme ≠ [] := by
  cases h with
  | blanks hne => exact hne
  | comment | value | symbol | negInt => simp
  | @fixed text token hmem =>
    have hall : ∀ entry ∈ fixedTokens, entry.1.toList ≠ [] := by decide +kernel
    exact hall _ hmem
  | int hspells => exact hspells.1
  | ident hword =>
    obtain ⟨c, rest, rfl, -⟩ := hword
    simp
  | label => simp

/-- A token the lexer takes is the longest lexeme at the head of the text. -/
theorem isLongest_of_lexeme? {token : Token} {n : Nat} (h : lexeme? text = some (.token token n)) :
    ∃ lexeme rest, text = lexeme ++ rest ∧ lexeme.length = n ∧
      IsLongest text lexeme (some token) := by
  obtain ⟨lexeme, rest, htext, hlength, hlexeme, hp⟩ := standsAt_of_lexeme? h
  refine ⟨lexeme, rest, htext, hlength, hlexeme, ⟨rest, htext.symm⟩, ?_, ?_⟩
  -- a longer lexeme would be dropped or taken instead, and the lexer does one thing only
  · rintro other kind hother ⟨tail, rfl⟩
    cases kind with
    | none =>
      obtain ⟨m, hgap⟩ := hother.gap tail
      rw [hgap] at h
      cases h
    | some token' =>
      obtain ⟨_, ⟨taken, m, htaken, hle, -⟩, -⟩ := hother.takesAt tail
      rw [htaken] at h
      obtain ⟨-, rfl⟩ := Lexeme.token.inj (Option.some.inj h)
      omega
  · rintro _ ⟨⟩
    exact hp

/-- The lexer takes a token where no longer token stands. -/
theorem IsLexeme.lexeme?_eq {token : Token} (h : IsLexeme lexeme (some token)) (hp : Prefers token)
    (hlongest : ∀ found kind, IsLexeme found (some kind) → found <+: lexeme ++ rest →
      found.length ≤ lexeme.length) :
    lexeme? (lexeme ++ rest) = some (.token token lexeme.length) := by
  obtain ⟨other, ⟨taken, n, htaken, hle, hsame⟩, hother⟩ := h.takesAt rest
  obtain ⟨found, tail, htext, hlength, hfound, -⟩ := standsAt_of_lexeme? htaken
  have hge : found.length ≤ lexeme.length := hlongest found _ hfound ⟨tail, htext.symm⟩
  obtain rfl : n = lexeme.length := by omega
  rw [htaken, hsame rfl, hother hp]

/-- A run of one class of characters is no longer than the run the lexer takes. -/
theorem length_le_takeWhile {p : Char → Bool} (h : ∀ c ∈ lexeme, p c = true)
    (hstarts : lexeme <+: text) : lexeme.length ≤ (text.takeWhile p).length := by
  obtain ⟨tail, rfl⟩ := hstarts
  rw [List.takeWhile_append_of_pos h]
  simp

/-- The longest comment, with the ends of lines behind it, that is a part of `// text`. -/
theorem length_comment_le {body ends : List Char} (hbody : ∀ c ∈ body, isCommentChar c = true)
    (hends : ∀ c ∈ ends, isCommentChar c = false) (hstarts : body ++ ends <+: text) :
    (body ++ ends).length ≤ (text.takeWhile isCommentChar ++
      (text.dropWhile isCommentChar).takeWhile fun c => !isCommentChar c).length := by
  cases ends with
  | nil =>
    have hle := length_le_takeWhile hbody (List.append_nil body ▸ hstarts)
    simp only [List.append_nil, List.length_append]
    omega
  | cons e ends =>
    -- the comment ends where the line does
    obtain ⟨tail, rfl⟩ := hstarts
    have he := hends e List.mem_cons_self
    rw [List.append_assoc, List.takeWhile_append_of_pos hbody, List.dropWhile_append_of_pos hbody,
      List.cons_append, List.takeWhile_cons_of_neg (by simp [he]),
      List.dropWhile_cons_of_neg (by simp [he]), ← List.cons_append,
      List.takeWhile_append_of_pos (by simpa using hends)]
    simp only [List.length_append, List.length_nil]
    omega

/-! ## Runs of the lexer -/

/-- Characters that are still to be skipped are dropped, and their bytes counted. -/
theorem lexFrom_skip (skip position : Nat) (text : List Char) :
    lexFrom skip position text =
      lexFrom 0 (position + byteLength (text.take skip)) (text.drop skip) := by
  -- on the text, as the lexer goes through it character by character
  induction text generalizing skip position with
  | nil => simp [lexFrom]
  | cons c rest ih =>
    cases skip with
    | zero => simp
    | succ skip =>
      rw [lexFrom, ih]
      simp [Nat.add_assoc]

theorem lexFrom_stuck (hne : text ≠ []) (h : lexeme? text = none) (position : Nat) :
    lexFrom 0 position text = ⟨[], .invalid position⟩ := by
  cases text with
  | nil => exact absurd rfl hne
  | cons c rest =>
    rw [lexFrom]
    simp [h]

/-- A gap is passed over. -/
theorem lexFrom_gap (hne : lexeme ≠ []) (h : lexeme? (lexeme ++ rest) = some (.gap lexeme.length))
    (position : Nat) :
    lexFrom 0 position (lexeme ++ rest) = lexFrom 0 (position + byteLength lexeme) rest := by
  cases lexeme with
  | nil => exact absurd rfl hne
  | cons c tail =>
    rw [List.cons_append] at h ⊢
    rw [lexFrom]
    simp only [h, List.length_cons, Nat.add_sub_cancel]
    rw [lexFrom_skip]
    simp [Nat.add_assoc]

/-- A token is recorded with its bytes, and the rest is read from behind it. -/
theorem lexFrom_token {token : Token} (hne : lexeme ≠ [])
    (h : lexeme? (lexeme ++ rest) = some (.token token lexeme.length)) (position : Nat) :
    lexFrom 0 position (lexeme ++ rest) =
      ⟨⟨token, ⟨position, position + byteLength lexeme⟩⟩ ::
          (lexFrom 0 (position + byteLength lexeme) rest).tokens,
        (lexFrom 0 (position + byteLength lexeme) rest).ending⟩ := by
  cases lexeme with
  | nil => exact absurd rfl hne
  | cons c tail =>
    rw [List.cons_append] at h ⊢
    rw [lexFrom]
    simp only [h, List.length_cons, Nat.add_sub_cancel]
    rw [lexFrom_skip]
    simp [Nat.add_assoc]

theorem lexFrom_blank {c : Char} (h : isGapChar c = true) (position : Nat) (rest : List Char) :
    lexFrom 0 position (c :: rest) = lexFrom 0 (position + c.utf8Size) rest := by
  rw [lexFrom]
  simp [lexeme?_blank h]

/-- Blanks are passed over, one by one. -/
theorem lexFrom_blanks (h : ∀ c ∈ lexeme, isGapChar c = true) (position : Nat)
    (rest : List Char) :
    lexFrom 0 position (lexeme ++ rest) = lexFrom 0 (position + byteLength lexeme) rest := by
  induction lexeme generalizing position with
  | nil => simp
  | cons c tail ih =>
    obtain ⟨hc, htail⟩ := List.forall_mem_cons.mp h
    rw [List.cons_append, lexFrom_blank hc, ih htail]
    simp [Nat.add_assoc]

/-- Among the lexemes that are dropped, blanks are the longest where a blank stands. -/
theorem isLongest_blanks {c : Char} {tail : List Char} (hc : isGapChar c = true) :
    IsLongest (c :: tail) ((c :: tail).takeWhile isGapChar) none := by
  refine ⟨.blanks (by simp [List.takeWhile_cons_of_pos hc]) fun d hd => List.mem_takeWhile_imp hd,
    List.takeWhile_prefix _, ?_, fun _ hnone => by cases hnone⟩
  rintro other (_ | token) hother hstarts
  · generalize hwhat : (none : Option Token) = what at hother
    cases hother with
    | blanks _ hall => exact length_le_takeWhile hall hstarts
    | comment =>
      -- a slash is no blank
      obtain ⟨rest, heq⟩ := hstarts
      obtain ⟨rfl, -⟩ := List.cons.inj heq
      exact absurd hc (by decide)
    | fixed | value | symbol | int | negInt | ident | label => cases hwhat
  · obtain ⟨rest, heq⟩ := hstarts
    obtain ⟨_, ⟨taken, m, htaken, -⟩, -⟩ := hother.takesAt rest
    rw [heq, lexeme?_blank hc] at htaken
    cases htaken

/-- Where two slashes stand, the longest lexeme is a comment with all ends of lines behind it. -/
theorem isLongest_comment (text : List Char) :
    IsLongest ('/' :: '/' :: text) ('/' :: '/' :: (text.takeWhile isCommentChar ++
      (text.dropWhile isCommentChar).takeWhile fun c => !isCommentChar c)) none := by
  refine ⟨.comment (fun c hc => List.mem_takeWhile_imp hc) (fun c hc => ?_), ?_, ?_,
    fun _ hnone => by cases hnone⟩
  · simpa using List.mem_takeWhile_imp hc
  · simp only [List.cons_prefix_cons, true_and]
    conv_rhs => rw [← List.takeWhile_append_dropWhile (p := isCommentChar) (l := text)]
    exact (List.prefix_append_right_inj _).mpr (List.takeWhile_prefix _)
  · rintro other (_ | token) hother hstarts
    · generalize hwhat : (none : Option Token) = what at hother
      cases hother with
      | blanks hne hall =>
        cases other with
        | nil => exact absurd rfl hne
        | cons c tail =>
          obtain ⟨rest, heq⟩ := hstarts
          obtain ⟨rfl, -⟩ := List.cons.inj heq
          exact absurd (hall _ List.mem_cons_self) (by decide)
      | comment hbody hends =>
        simp only [List.cons_prefix_cons, true_and] at hstarts
        simpa using length_comment_le hbody hends hstarts
      | fixed | value | symbol | int | negInt | ident | label => cases hwhat
    · obtain ⟨rest, heq⟩ := hstarts
      obtain ⟨_, ⟨taken, m, htaken, -⟩, -⟩ := hother.takesAt rest
      rw [heq] at htaken
      cases htaken

/-- The longest lexeme where something is dropped, and how the lexer passes over it. -/
theorem exists_isLongest_gap {n : Nat} (h : lexeme? text = some (.gap n)) :
    ∃ lexeme rest, text = lexeme ++ rest ∧ IsLongest text lexeme none ∧
      ∀ position, lexFrom 0 position text = lexFrom 0 (position + byteLength lexeme) rest := by
  rcases gap_cases h with ⟨-, c, tail, rfl, hc⟩ | ⟨tail, rfl, -⟩
  · refine ⟨_, (c :: tail).dropWhile isGapChar, List.takeWhile_append_dropWhile.symm,
      isLongest_blanks hc, fun position => ?_⟩
    rw [← lexFrom_blanks fun d hd => List.mem_takeWhile_imp hd, List.takeWhile_append_dropWhile]
  · let body := tail.takeWhile isCommentChar
    let after := tail.dropWhile isCommentChar
    let ends := after.takeWhile fun c => !isCommentChar c
    have hsplit : '/' :: '/' :: tail = ('/' :: '/' :: body) ++ after := by
      simp [body, after]
    have hafter : after = ends ++ after.dropWhile fun c => !isCommentChar c :=
      List.takeWhile_append_dropWhile.symm
    have hends : ∀ c ∈ ends, isGapChar c = true := by
      intro c hc
      exact isGapChar_of_isCommentChar_eq_false (by simpa using List.mem_takeWhile_imp hc)
    refine ⟨_, after.dropWhile fun c => !isCommentChar c, ?_, isLongest_comment tail,
      fun position => ?_⟩
    · rw [← List.cons_append, ← List.cons_append, List.append_assoc, ← hafter, hsplit]
    · -- the lexer drops the comment first, and then the ends of lines one by one
      have hlexeme : lexeme? (('/' :: '/' :: body) ++ after) =
          some (.gap ('/' :: '/' :: body).length) := by
        rw [← hsplit]
        rfl
      rw [hsplit, lexFrom_gap (by simp) hlexeme, hafter, lexFrom_blanks hends, ← hafter]
      simp [body, ends, after, Nat.add_assoc]

/-- Nothing is taken exactly where no lexeme starts. -/
theorem lexeme?_eq_none_iff :
    lexeme? text = none ↔ ∀ lexeme what, IsLexeme lexeme what → ¬lexeme <+: text := by
  constructor
  · rintro h lexeme (_ | token) hlexeme ⟨rest, rfl⟩
    · obtain ⟨n, hgap⟩ := hlexeme.gap rest
      rw [hgap] at h
      cases h
    · obtain ⟨_, ⟨taken, n, htaken, -⟩, -⟩ := hlexeme.takesAt rest
      rw [htaken] at h
      cases h
  · intro h
    rw [Option.eq_none_iff_forall_ne_some]
    rintro (n | ⟨token, n⟩) htaken
    · obtain ⟨lexeme, rest, -, hlongest, -⟩ := exists_isLongest_gap htaken
      exact h lexeme none hlongest.isLexeme hlongest.starts
    · obtain ⟨lexeme, rest, -, -, hlongest⟩ := isLongest_of_lexeme? htaken
      exact h lexeme _ hlongest.isLexeme hlongest.starts

/-- What the lexer makes of a text is a scan of it. -/
theorem scans_lexFrom (position : Nat) (text : List Char) :
    Scans position text (lexFrom 0 position text).tokens (lexFrom 0 position text).ending := by
  -- induction on the length: every lexeme leaves a shorter text
  induction hlength : text.length using Nat.strong_induction_on generalizing position text with
  | _ length ih =>
    by_cases hnil : text = []
    · subst hnil
      exact .done position
    cases htaken : lexeme? text with
    | none =>
      rw [lexFrom_stuck hnil htaken]
      exact .stuck hnil (lexeme?_eq_none_iff.mp htaken)
    | some taken =>
      cases taken with
      | gap n =>
        obtain ⟨lexeme, rest, rfl, hlongest, hlex⟩ := exists_isLongest_gap htaken
        have hpos := List.length_pos_iff.mpr hlongest.isLexeme.ne_nil
        rw [List.length_append] at hlength
        rw [hlex]
        exact .skip hlongest (ih rest.length (by omega) _ rest rfl)
      | token token n =>
        obtain ⟨lexeme, rest, rfl, rfl, hlongest⟩ := isLongest_of_lexeme? htaken
        have hpos := List.length_pos_iff.mpr hlongest.isLexeme.ne_nil
        rw [List.length_append] at hlength
        rw [lexFrom_token hlongest.isLexeme.ne_nil htaken]
        exact .token hlongest (ih rest.length (by omega) _ rest rfl)

/-- A text has only one scan, that of the lexer. -/
theorem Scans.lexFrom_eq {position : Nat} {tokens : List (Spanned Token)} {ending : Ending}
    (h : Scans position text tokens ending) : lexFrom 0 position text = ⟨tokens, ending⟩ := by
  induction h with
  | done => rfl
  | stuck hne hnone => exact lexFrom_stuck hne (lexeme?_eq_none_iff.mpr hnone) _
  | @skip position lexeme rest tokens ending hlongest _ ih =>
    obtain ⟨n, hgap⟩ := hlongest.isLexeme.gap rest
    obtain ⟨other, tail, htext, hother, hlex⟩ := exists_isLongest_gap hgap
    -- two longest lexemes at one place are the same
    have hle := hlongest.longest other none hother.isLexeme hother.starts
    have hge := hother.longest lexeme none hlongest.isLexeme hlongest.starts
    obtain ⟨rfl, rfl⟩ := List.append_inj htext (by omega)
    rw [hlex, ih]
  | token hlongest _ ih =>
    have htaken := hlongest.isLexeme.lexeme?_eq (hlongest.prefers _ rfl)
      fun found kind => hlongest.longest found (some kind)
    rw [lexFrom_token hlongest.isLexeme.ne_nil htaken, ih]

/-- The lexer computes the scan of a text. -/
theorem scans_iff {position : Nat} {tokens : List (Spanned Token)} {ending : Ending} :
    Scans position text tokens ending ↔ lexFrom 0 position text = ⟨tokens, ending⟩ := by
  refine ⟨Scans.lexFrom_eq, fun h => ?_⟩
  have hscans := scans_lexFrom position text
  rwa [h] at hscans

end Rejoin.Listing
