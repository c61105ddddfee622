import StackScript.Token.Lexer
import Mathlib.Data.List.TakeWhile
import Mathlib.Tactic.IntervalCases

/-!
# The token grammar and the longest match

The reader of `StackScript.Lexer` is the longest-match reader of a small token grammar, with
exact places.  This module states the grammar and the reading on their own and proves that
`tokenize` follows them.

* `Lexer.Lexeme lx k`: the text `lx` is a lexeme of the grammar and reads as a token of kind `k`:
  an operator or delimiter spelled as its kind is written, a word (a reserved word reads as its
  own kind), a string between two quotes, or ASCII digits with an optional point and more digits.
* `Lexer.Longest cs lx k`: `lx` is the longest lexeme that begins `cs`.
* `Lexer.Cuts before cs toks`: the text `cs`, which follows `before` in the source, reads as the
  tokens `toks`.  Blanks and `//` comments are skipped, each token is the longest lexeme where it
  begins, and the end of the text gives one end token.  Each token's span is computed from
  `before` alone: its byte range, one more than the line feeds before it, and one more than the
  characters since the last of them.

The main results are `Lexer.tokensFrom_eq_ok_iff`, which ties the reader's loop to `Cuts` from
any place, and `tokenize_longest_match`: a source reads exactly as `Cuts` cuts it, and then the
list ends with exactly one end token and each token other than a number shows the text its span
covers (`Lexer.bytesIn`).  The proof goes one kind of first character at a time: for each branch
of `token` a lemma says that its text is the longest lexeme there (`longest_single`,
`longest_withEqual`, `longest_string`, `longest_number`, `longest_word`), or that no lexeme
begins there, and `Lexeme.unique` makes the longest lexeme one text of one kind.
-/

namespace StackScript

namespace TokenKind

/-- The operators and delimiters: the kinds spelled with one or two fixed characters. -/
def isSymbol : TokenKind → Bool
  | plus | minus | star | slash | equal | equalEqual | bang | bangEqual
  | less | lessEqual | greater | greaterEqual
  | leftParen | rightParen | leftBrace | rightBrace | comma | dot | semicolon => true
  | _ => false

end TokenKind

namespace Lexer

/-! ## The grammar -/

/-- ASCII digits, at least one. -/
def Digits (ds : List Char) : Prop := ds ≠ [] ∧ ∀ d ∈ ds, d.isDigit = true

/-- The lexemes of the token grammar, each with the kind of token it reads as. -/
inductive Lexeme : List Char → TokenKind → Prop
  /-- An operator or a delimiter, spelled as its kind is written. -/
  | symbol {k : TokenKind} : k.isSymbol = true → Lexeme k.lexeme.toList k
  /-- A letter or `_`, then letters, digits and `_`; a reserved word reads as its own kind. -/
  | word {c : Char} {cs : List Char} : isWordStart c = true →
      (∀ d ∈ cs, isWordChar d = true) →
      Lexeme (c :: cs) ((TokenKind.keyword? (String.ofList (c :: cs))).getD
        (.identifier (String.ofList (c :: cs))))
  /-- The characters between two quotes, none of them a quote. -/
  | string {body : List Char} : '"' ∉ body →
      Lexeme ('"' :: body ++ ['"']) (.string (String.ofList body))
  /-- A number without a point. -/
  | whole {ds : List Char} : Digits ds → Lexeme ds (.number (numberValue ds []))
  /-- A number with a point and digits on both sides of it. -/
  | fraction {ds fs : List Char} : Digits ds → Digits fs →
      Lexeme (ds ++ '.' :: fs) (.number (numberValue ds fs))

/-- `lx` is the longest lexeme that begins `cs`, and it reads as `k`. -/
structure Longest (cs lx : List Char) (k : TokenKind) : Prop where
  isPrefix : lx <+: cs
  lexeme : Lexeme lx k
  longest : ∀ {lx' : List Char} {k' : TokenKind}, lx' <+: cs → Lexeme lx' k' →
    lx'.length ≤ lx.length

/-- The number of bytes of some characters in UTF-8. -/
def byteWidth : List Char → Nat
  | [] => 0
  | c :: cs => c.utf8Size + byteWidth cs

@[simp] theorem byteWidth_nil : byteWidth [] = 0 := rfl

@[simp] theorem byteWidth_cons (c : Char) (cs : List Char) :
    byteWidth (c :: cs) = c.utf8Size + byteWidth cs := rfl

@[simp] theorem byteWidth_append (xs ys : List Char) :
    byteWidth (xs ++ ys) = byteWidth xs + byteWidth ys := by
  induction xs with
  | nil => simp
  | cons c xs ih => simp [ih, Nat.add_assoc]

/-- The span of a piece of the source that follows `before`: its byte range, its line (one more
than the line feeds before it) and its column (one more than the characters since the last line
feed). -/
def spanAfter (before piece : List Char) : Span :=
  ⟨byteWidth before, byteWidth before + byteWidth piece, before.count '\n' + 1,
    (before.reverse.takeWhile (· != '\n')).length + 1⟩

/-- The characters of a text whose bytes lie in `[a, b)`, for a text that begins at byte `o`. -/
def bytesIn (a b : Nat) : Nat → List Char → List Char
  | _, [] => []
  | o, c :: cs =>
    (if a ≤ o ∧ o + c.utf8Size ≤ b then [c] else []) ++ bytesIn a b (o + c.utf8Size) cs

/-- `Cuts before cs toks`: the text `cs`, which follows `before` in the source, reads as the
tokens `toks`. -/
inductive Cuts : List Char → List Char → List Token → Prop
  /-- The end of the text is the end token. -/
  | finish {before : List Char} : Cuts before [] [⟨.eof, spanAfter before []⟩]
  /-- A blank is skipped. -/
  | blank {before cs : List Char} {toks : List Token} {c : Char} : isBlank c = true →
      Cuts (before ++ [c]) cs toks → Cuts before (c :: cs) toks
  /-- A comment runs from `//` to the end of its line and is skipped. -/
  | comment {before body cs : List Char} {toks : List Token} : (∀ d ∈ body, d ≠ '\n') →
      (∀ d ∈ cs.head?, d = '\n') → Cuts (before ++ '/' :: '/' :: body) cs toks →
      Cuts before ('/' :: '/' :: body ++ cs) toks
  /-- Anywhere else the longest lexeme is the next token. -/
  | token {before lx cs : List Char} {toks : List Token} {k : TokenKind} :
      ¬ ['/', '/'] <+: lx ++ cs → Longest (lx ++ cs) lx k → Cuts (before ++ lx) cs toks →
      Cuts before (lx ++ cs) (⟨k, spanAfter before lx⟩ :: toks)

/-! ## Places -/

/-- The place after reading `before` from the beginning of the source. -/
def place (before : List Char) : Pos :=
  ⟨byteWidth before, before.count '\n' + 1, (before.reverse.takeWhile (· != '\n')).length + 1⟩

@[simp] theorem place_nil : place [] = Pos.origin := rfl

theorem place_step (before : List Char) (c : Char) :
    (place before).step c = place (before ++ [c]) := by
  by_cases hc : c = '\n'
  · subst hc
    simp [Pos.step, place]
  · simp [Pos.step, place, hc]

theorem place_stepAll (before cs : List Char) :
    (place before).stepAll cs = place (before ++ cs) := by
  induction cs generalizing before with
  | nil => simp [Pos.stepAll]
  | cons c cs ih =>
    have h : (place before).stepAll (c :: cs) = ((place before).step c).stepAll cs := rfl
    rw [h, place_step, ih, List.append_assoc, List.singleton_append]

theorem spanTo_place (before piece : List Char) :
    (place before).spanTo (place (before ++ piece)) = spanAfter before piece := by
  simp [Pos.spanTo, place, spanAfter]

/-! ## Runs of characters -/

section Runs

variable {α : Type} {p : α → Bool}

theorem prefix_takeWhile {xs l : List α} (h : xs <+: l) (hp : ∀ x ∈ xs, p x = true) :
    xs <+: l.takeWhile p := by
  obtain ⟨rest, rfl⟩ := h
  rw [List.takeWhile_append_of_pos hp]
  exact List.prefix_append _ _

theorem takeWhile_eq_of_prefix {xs l : List α} {y : α} (h : xs ++ [y] <+: l)
    (hp : ∀ x ∈ xs, p x = true) (hy : p y = false) : l.takeWhile p = xs := by
  obtain ⟨rest, rfl⟩ := h
  rw [List.append_assoc, List.takeWhile_append_of_pos hp, List.singleton_append,
    List.takeWhile_cons_of_neg (by simp [hy]), List.append_nil]

theorem take_length_sub {pre s l : List α} (h : l = pre ++ s) :
    l.take (l.length - s.length) = pre := by
  subst h
  simp

end Runs

/-! ## Characters that begin lexemes -/

/-- The characters that begin an operator which a following `=` extends. -/
def Relational (c : Char) : Prop := c = '=' ∨ c = '!' ∨ c = '<' ∨ c = '>'

instance (c : Char) : Decidable (Relational c) :=
  inferInstanceAs (Decidable (c = '=' ∨ c = '!' ∨ c = '<' ∨ c = '>'))

theorem blank_cases {c : Char} (h : isBlank c = true) :
    c = ' ' ∨ c = '\t' ∨ c = '\r' ∨ c = '\n' := by
  simpa [isBlank] using h

theorem single?_cases {c : Char} {k : TokenKind} (h : single? c = some k) :
    c ∈ ['(', ')', '{', '}', ',', '.', ';', '+', '-', '*', '/'] := by
  unfold single? at h
  split at h <;> simp_all

theorem single?_excludes {c : Char} {k : TokenKind} (h : single? c = some k) :
    ¬ Relational c ∧ c.isDigit = false ∧ isWordStart c = false ∧ isBlank c = false := by
  have hc := single?_cases h
  simp only [List.mem_cons, List.not_mem_nil, or_false] at hc
  rcases hc with rfl | rfl | rfl | rfl | rfl | rfl | rfl | rfl | rfl | rfl | rfl <;> decide

theorem Relational.excludes {c : Char} (h : Relational c) :
    single? c = none ∧ c.isDigit = false ∧ isWordStart c = false ∧ isBlank c = false := by
  rcases h with rfl | rfl | rfl | rfl <;> exact ⟨rfl, by decide⟩

theorem wordStart_of_digit {c : Char} (h : c.isDigit = true) : isWordStart c = false := by
  simp [Char.isDigit, UInt32.le_iff_toNat_le] at h
  obtain ⟨h₁, h₂⟩ := h
  rw [← Char.ofNat_toNat c]
  generalize c.toNat = n at h₁ h₂ ⊢
  interval_cases n <;> decide

theorem blank_excludes {c : Char} (h : isBlank c = true) :
    c.isDigit = false ∧ isWordStart c = false := by
  rcases blank_cases h with rfl | rfl | rfl | rfl <;> decide

theorem symbol_spelling {k : TokenKind} (hk : k.isSymbol = true) :
    (∃ c, k.lexeme.toList = [c] ∧ single? c = some k) ∨
      ∃ c, Relational c ∧ (k.lexeme.toList = [c] ∨ k.lexeme.toList = [c, '=']) := by
  cases k <;> simp [TokenKind.isSymbol] at hk <;> simp [TokenKind.lexeme, single?, Relational]

theorem symbol_unique {k k' : TokenKind} (hk : k.isSymbol = true) (hk' : k'.isSymbol = true)
    (h : k.lexeme.toList = k'.lexeme.toList) : k = k' := by
  cases k <;> simp [TokenKind.isSymbol] at hk <;> cases k' <;>
    simp [TokenKind.isSymbol] at hk' <;> simp [TokenKind.lexeme] at h ⊢

/-! ## Lexemes by their first character -/

theorem Lexeme.ne_nil {lx : List Char} {k : TokenKind} (h : Lexeme lx k) : lx ≠ [] := by
  cases h with
  | symbol hk =>
    rcases symbol_spelling hk with ⟨c, hc, -⟩ | ⟨c, -, hc | hc⟩ <;> simp [hc]
  | word => simp
  | string => simp
  | whole hd => exact hd.1
  | fraction => simp

theorem Lexeme.cons_cases {c : Char} {t : List Char} {k : TokenKind} (h : Lexeme (c :: t) k) :
    (t = [] ∧ single? c = some k) ∨
      (Relational c ∧ (t = [] ∨ t = ['=']) ∧ k.isSymbol = true ∧
        k.lexeme.toList = c :: t) ∨
      (isWordStart c = true ∧ (∀ d ∈ t, isWordChar d = true) ∧
        k = (TokenKind.keyword? (String.ofList (c :: t))).getD
          (.identifier (String.ofList (c :: t)))) ∨
      (c = '"' ∧ ∃ body, '"' ∉ body ∧ t = body ++ ['"'] ∧
        k = .string (String.ofList body)) ∨
      (c.isDigit = true ∧ ((Digits (c :: t) ∧ k = .number (numberValue (c :: t) [])) ∨
        ∃ ds fs, c :: t = ds ++ '.' :: fs ∧ Digits ds ∧ Digits fs ∧
          k = .number (numberValue ds fs))) := by
  obtain ⟨lx, hlx, h⟩ : ∃ lx, lx = c :: t ∧ Lexeme lx k := ⟨_, rfl, h⟩
  cases h with
  | symbol hk =>
    rcases symbol_spelling hk with ⟨d, hd, hs⟩ | ⟨d, hr, hd | hd⟩ <;>
      obtain ⟨rfl, rfl⟩ := List.cons.inj (hd.symm.trans hlx)
    · exact .inl ⟨rfl, hs⟩
    · exact .inr (.inl ⟨hr, .inl rfl, hk, hd⟩)
    · exact .inr (.inl ⟨hr, .inr rfl, hk, hd⟩)
  | word hw hcs =>
    obtain ⟨rfl, rfl⟩ := List.cons.inj hlx
    exact .inr (.inr (.inl ⟨hw, hcs, rfl⟩))
  | string hq =>
    obtain ⟨rfl, rfl⟩ := List.cons.inj hlx
    exact .inr (.inr (.inr (.inl ⟨rfl, _, hq, rfl, rfl⟩)))
  | whole hd =>
    subst hlx
    exact .inr (.inr (.inr (.inr ⟨hd.2 c (by simp), .inl ⟨hd, rfl⟩⟩)))
  | @fraction ds fs hd hf =>
    obtain ⟨d, ds', rfl⟩ := List.exists_cons_of_ne_nil hd.1
    obtain ⟨rfl, -⟩ := List.cons.inj hlx
    exact .inr (.inr (.inr (.inr ⟨hd.2 _ (by simp), .inr ⟨_, fs, hlx.symm, hd, hf, rfl⟩⟩)))

theorem Lexeme.of_single {c : Char} {t : List Char} {k k₀ : TokenKind} (h : Lexeme (c :: t) k)
    (hc : single? c = some k₀) : t = [] ∧ k = k₀ := by
  have hx := single?_excludes hc
  rcases h.cons_cases with ⟨rfl, hs⟩ | ⟨hr, -⟩ | ⟨hw, -⟩ | ⟨rfl, -⟩ | ⟨hd, -⟩
  · exact ⟨rfl, Option.some.inj (hs.symm.trans hc)⟩
  · exact absurd hr hx.1
  · simp [hx.2.2.1] at hw
  · cases hc
  · simp [hx.2.1] at hd

theorem Lexeme.of_relational {c : Char} {t : List Char} {k : TokenKind} (h : Lexeme (c :: t) k)
    (hc : Relational c) :
    (t = [] ∨ t = ['=']) ∧ k.isSymbol = true ∧ k.lexeme.toList = c :: t := by
  have hx := hc.excludes
  rcases h.cons_cases with ⟨-, hs⟩ | ⟨-, ht⟩ | ⟨hw, -⟩ | ⟨rfl, -⟩ | ⟨hd, -⟩
  · simp [hx.1] at hs
  · exact ht
  · simp [hx.2.2.1] at hw
  · rcases hc with h | h | h | h <;> cases h
  · simp [hx.2.1] at hd

theorem Lexeme.of_wordStart {c : Char} {t : List Char} {k : TokenKind} (h : Lexeme (c :: t) k)
    (hc : isWordStart c = true) :
    (∀ d ∈ t, isWordChar d = true) ∧
      k = (TokenKind.keyword? (String.ofList (c :: t))).getD
        (.identifier (String.ofList (c :: t))) := by
  rcases h.cons_cases with ⟨-, hs⟩ | ⟨hr, -⟩ | ⟨-, hw⟩ | ⟨rfl, -⟩ | ⟨hd, -⟩
  · simp [(single?_excludes hs).2.2.1] at hc
  · simp [hr.excludes.2.2.1] at hc
  · exact hw
  · cases hc
  · simp [wordStart_of_digit hd] at hc

theorem Lexeme.of_quote {t : List Char} {k : TokenKind} (h : Lexeme ('"' :: t) k) :
    ∃ body, '"' ∉ body ∧ t = body ++ ['"'] ∧ k = .string (String.ofList body) := by
  rcases h.cons_cases with ⟨-, hs⟩ | ⟨hr, -⟩ | ⟨hw, -⟩ | ⟨-, hq⟩ | ⟨hd, -⟩
  · cases hs
  · rcases hr with h | h | h | h <;> cases h
  · cases hw
  · exact hq
  · cases hd

theorem Lexeme.of_digit {c : Char} {t : List Char} {k : TokenKind} (h : Lexeme (c :: t) k)
    (hc : c.isDigit = true) :
    (Digits (c :: t) ∧ k = .number (numberValue (c :: t) [])) ∨
      ∃ ds fs, c :: t = ds ++ '.' :: fs ∧ Digits ds ∧ Digits fs ∧
        k = .number (numberValue ds fs) := by
  rcases h.cons_cases with ⟨-, hs⟩ | ⟨hr, -⟩ | ⟨hw, -⟩ | ⟨rfl, -⟩ | ⟨-, hn⟩
  · simp [(single?_excludes hs).2.1] at hc
  · simp [hr.excludes.2.1] at hc
  · simp [wordStart_of_digit hc] at hw
  · cases hc
  · exact hn

theorem Lexeme.not_blank {c : Char} {t : List Char} {k : TokenKind} (h : Lexeme (c :: t) k) :
    isBlank c = false := by
  rcases h.cons_cases with ⟨-, hs⟩ | ⟨hr, -⟩ | ⟨hw, -⟩ | ⟨rfl, -⟩ | ⟨hd, -⟩
  · exact (single?_excludes hs).2.2.2
  · exact hr.excludes.2.2.2
  · exact Bool.eq_false_iff.2 fun hb => by simp [(blank_excludes hb).2] at hw
  · rfl
  · exact Bool.eq_false_iff.2 fun hb => by simp [(blank_excludes hb).1] at hd

theorem digits_point_unique {ds fs ds' fs' : List Char} (h : ds ++ '.' :: fs = ds' ++ '.' :: fs')
    (hds : Digits ds) (hds' : Digits ds') : ds = ds' ∧ fs = fs' := by
  have h₁ : (ds ++ '.' :: fs).takeWhile Char.isDigit = ds :=
    takeWhile_eq_of_prefix (⟨fs, by simp⟩ : ds ++ ['.'] <+: _) hds.2 rfl
  have h₂ : (ds' ++ '.' :: fs').takeWhile Char.isDigit = ds' :=
    takeWhile_eq_of_prefix (⟨fs', by simp⟩ : ds' ++ ['.'] <+: _) hds'.2 rfl
  have hd : ds = ds' := by rw [← h₁, ← h₂, h]
  subst hd
  exact ⟨rfl, by simpa using h⟩

/-- A lexeme reads as one kind of token. -/
theorem Lexeme.unique {lx : List Char} {k k' : TokenKind} (h : Lexeme lx k) (h' : Lexeme lx k') :
    k = k' := by
  obtain ⟨c, t, rfl⟩ := List.exists_cons_of_ne_nil h.ne_nil
  rcases h.cons_cases with ⟨-, hs⟩ | ⟨hr, -, hk, hl⟩ | ⟨hw, -, rfl⟩ |
    ⟨rfl, body, -, rfl, rfl⟩ | ⟨hd, ⟨hds, rfl⟩ | ⟨ds, fs, heq, hds, -, rfl⟩⟩
  · exact (h'.of_single hs).2.symm
  · obtain ⟨-, hk', hl'⟩ := h'.of_relational hr
    exact symbol_unique hk hk' (hl.trans hl'.symm)
  · exact (h'.of_wordStart hw).2.symm
  · obtain ⟨body', -, ht, rfl⟩ := h'.of_quote
    rw [List.append_cancel_right ht]
  · rcases h'.of_digit hd with ⟨-, rfl⟩ | ⟨ds', fs', heq', -, -, rfl⟩
    · rfl
    · -- digits have no point
      exact absurd (hds.2 '.' (by simp [heq'])) (by decide)
  · rcases h'.of_digit hd with ⟨hds', rfl⟩ | ⟨ds', fs', heq', hds', -, rfl⟩
    · exact absurd (hds'.2 '.' (by simp [heq])) (by decide)
    · obtain ⟨rfl, rfl⟩ := digits_point_unique (heq.symm.trans heq') hds hds'
      rfl

theorem Lexeme.of_prefix_cons {c : Char} {r lx : List Char} {k : TokenKind} (hp : lx <+: c :: r)
    (h : Lexeme lx k) : ∃ t, lx = c :: t ∧ t <+: r := by
  obtain ⟨d, t, rfl⟩ := List.exists_cons_of_ne_nil h.ne_nil
  obtain ⟨rfl, ht⟩ := List.cons_prefix_cons.1 hp
  exact ⟨t, rfl, ht⟩


/-! ## The longest lexeme at each kind of character -/

theorem single?_spelling {c : Char} {k : TokenKind} (h : single? c = some k) :
    k.isSymbol = true ∧ k.lexeme.toList = [c] := by
  unfold single? at h
  split at h <;> cases h <;> exact ⟨rfl, rfl⟩

theorem longest_single {c : Char} {k : TokenKind} (r : List Char) (hc : single? c = some k) :
    Longest (c :: r) [c] k where
  isPrefix := ⟨r, rfl⟩
  lexeme := by
    obtain ⟨hk, hs⟩ := single?_spelling hc
    exact hs ▸ Lexeme.symbol hk
  longest := by
    intro lx k' hp h
    obtain ⟨t, rfl, -⟩ := Lexeme.of_prefix_cons hp h
    simp [(h.of_single hc).1]

theorem withEqual_cases {r : List Char} {double single k : TokenKind} {s : Rest r}
    (h : withEqual r double single = (k, s)) :
    (r = '=' :: s.1 ∧ k = double) ∨ (s.1 = r ∧ k = single ∧ r.head? ≠ some '=') := by
  unfold withEqual at h
  split at h
  · cases h
    exact .inl ⟨rfl, rfl⟩
  · next hne =>
    cases h
    refine .inr ⟨rfl, rfl, ?_⟩
    intro hhead
    obtain ⟨t, rfl⟩ : ∃ t, r = '=' :: t := by
      cases r with
      | nil => cases hhead
      | cons d t => cases hhead; exact ⟨t, rfl⟩
    exact hne t rfl

/-- `=`, `!`, `<` and `>` take a following `=`. -/
theorem longest_withEqual {c : Char} {r : List Char} {double single k : TokenKind} {s : Rest r}
    (hc : Relational c) (hsingle : single.isSymbol = true ∧ single.lexeme.toList = [c])
    (hdouble : double.isSymbol = true ∧ double.lexeme.toList = [c, '='])
    (h : withEqual r double single = (k, s)) :
    Longest (c :: r) (c :: r.take (r.length - s.1.length)) k ∧
      c :: r = (c :: r.take (r.length - s.1.length)) ++ s.1 := by
  have hshort : ∀ {lx k'}, lx <+: c :: r → Lexeme lx k' → lx = [c] ∨ lx = [c, '='] := by
    intro lx k' hp hl
    obtain ⟨t, rfl, -⟩ := Lexeme.of_prefix_cons hp hl
    rcases (hl.of_relational hc).1 with rfl | rfl
    · exact .inl rfl
    · exact .inr rfl
  rcases withEqual_cases h with ⟨hr, rfl⟩ | ⟨hs, rfl, hne⟩
  · have htake : r.take (r.length - s.1.length) = ['='] := take_length_sub hr
    rw [htake]
    refine ⟨⟨by simp [hr], hdouble.2 ▸ Lexeme.symbol hdouble.1, ?_⟩, by simp [hr]⟩
    intro lx k' hp hl
    rcases hshort hp hl with rfl | rfl <;> simp
  · have htake : r.take (r.length - s.1.length) = [] := by simp [hs]
    rw [htake]
    refine ⟨⟨⟨r, rfl⟩, hsingle.2 ▸ Lexeme.symbol hsingle.1, ?_⟩, by simp [hs]⟩
    intro lx k' hp hl
    rcases hshort hp hl with rfl | rfl
    · simp
    · simp [List.cons_prefix_cons] at hp
      obtain ⟨t, rfl⟩ := hp
      simp at hne

/-- A string runs to the next quote. -/
theorem longest_string {r s : List Char} {x : Char} (h : r.dropWhile (· != '"') = x :: s) :
    Longest ('"' :: r) ('"' :: r.takeWhile (· != '"') ++ ['"'])
        (.string (String.ofList (r.takeWhile (· != '"')))) ∧
      '"' :: r = ('"' :: r.takeWhile (· != '"') ++ ['"']) ++ s := by
  have hx : x = '"' := by
    have := List.head_dropWhile_not (· != '"') (l := r) (by simp [h])
    simpa [h] using this
  subst hx
  have hsplit : r = r.takeWhile (· != '"') ++ '"' :: s := by
    rw [← h, List.takeWhile_append_dropWhile]
  have hbody : '"' ∉ r.takeWhile (· != '"') := fun hq => by
    simpa using List.mem_takeWhile_imp hq
  have hcut : '"' :: r = ('"' :: r.takeWhile (· != '"') ++ ['"']) ++ s :=
    (congrArg (List.cons '"') hsplit).trans (by simp)
  refine ⟨⟨⟨s, hcut.symm⟩, Lexeme.string hbody, ?_⟩, hcut⟩
  intro lx k' hp hl
  obtain ⟨t, rfl, ht⟩ := Lexeme.of_prefix_cons hp hl
  obtain ⟨body, hq, rfl, -⟩ := hl.of_quote
  -- the quote that closes the string is the first one after the opening quote
  have hb : r.takeWhile (· != '"') = body :=
    takeWhile_eq_of_prefix ht (fun d hd => bne_iff_ne.2 fun hdq => hq (hdq ▸ hd)) (by simp)
  simp [hb]

/-- A quote with no quote after it begins no lexeme. -/
theorem no_lexeme_unterminated {r : List Char} (h : r.dropWhile (· != '"') = []) :
    ∀ lx k, lx <+: '"' :: r → ¬ Lexeme lx k := by
  intro lx k hp hl
  obtain ⟨t, rfl, ht⟩ := Lexeme.of_prefix_cons hp hl
  obtain ⟨body, -, rfl, -⟩ := hl.of_quote
  have hall := List.dropWhile_eq_nil_iff.1 h
  have : '"' ∈ r := ht.subset (by simp)
  simpa using hall _ this

theorem number_prefix {c : Char} {r lx : List Char} {k : TokenKind} (hc : c.isDigit = true)
    (hp : lx <+: c :: r) (h : Lexeme lx k) :
    lx.length ≤ (c :: r.takeWhile Char.isDigit).length ∨
      ∃ fs, lx = (c :: r.takeWhile Char.isDigit) ++ '.' :: fs ∧ Digits fs ∧
        '.' :: fs <+: r.dropWhile Char.isDigit := by
  have hrun : (c :: r).takeWhile Char.isDigit = c :: r.takeWhile Char.isDigit :=
    List.takeWhile_cons_of_pos hc
  obtain ⟨t, rfl, -⟩ := Lexeme.of_prefix_cons hp h
  rcases h.of_digit hc with ⟨hd, -⟩ | ⟨ds, fs, heq, hds, hfs, -⟩
  · exact .inl (hrun ▸ (prefix_takeWhile hp hd.2).length_le)
  · -- the digits before the point are all the digits there
    have hpre : ds ++ ['.'] <+: c :: r := by
      rw [heq] at hp
      exact List.IsPrefix.trans (by simp) hp
    have hds' : (c :: r).takeWhile Char.isDigit = ds := takeWhile_eq_of_prefix hpre hds.2 rfl
    rw [hrun] at hds'
    subst hds'
    refine .inr ⟨fs, heq, hfs, ?_⟩
    have hcut : c :: r = (c :: r.takeWhile Char.isDigit) ++ r.dropWhile Char.isDigit := by
      simp
    rw [heq, hcut] at hp
    exact (List.prefix_append_right_inj _).1 hp

/-- A number takes all the digits there, and a point with more digits after them when a digit
follows the point. -/
theorem longest_number {c : Char} (r : List Char) (hc : c.isDigit = true) :
    Longest (c :: r) (number c r).2.1 (number c r).1 ∧
      c :: r = (number c r).2.1 ++ (number c r).2.2.1 := by
  have hwhole : Digits (c :: r.takeWhile Char.isDigit) :=
    ⟨by simp, by simpa [hc] using fun d hd => List.mem_takeWhile_imp hd⟩
  have hcut : c :: r = (c :: r.takeWhile Char.isDigit) ++ r.dropWhile Char.isDigit := by simp
  rcases hn : number c r with ⟨k, text, rest⟩
  dsimp only
  unfold number at hn
  dsimp only at hn
  split at hn
  · next _ _ _ d s _ hafter _ =>
    split_ifs at hn with hd <;> cases hn
    · -- a point and a digit: the fraction runs over the digits after the point
      have hfrac : Digits (d :: s.takeWhile Char.isDigit) :=
        ⟨by simp, by simpa [hd] using fun e he => List.mem_takeWhile_imp he⟩
      have hsplit : c :: r = ((c :: r.takeWhile Char.isDigit) ++ '.' :: d ::
          s.takeWhile Char.isDigit) ++ s.dropWhile Char.isDigit := by
        rw [hcut, hafter]
        simp
      refine ⟨⟨⟨_, hsplit.symm⟩, Lexeme.fraction hwhole hfrac, ?_⟩, hsplit⟩
      intro lx k' hp hl
      rcases number_prefix hc hp hl with hle | ⟨fs, rfl, hfs, hdot⟩
      · simp at hle ⊢
        omega
      · rw [hafter, List.cons_prefix_cons] at hdot
        have hle := (prefix_takeWhile hdot.2 hfs.2).length_le
        rw [List.takeWhile_cons_of_pos hd] at hle
        simp at hle ⊢
        omega
    · -- a point without a digit after it is not part of the number
      have hcut' : c :: r = (c :: r.takeWhile Char.isDigit) ++ '.' :: d :: s := by
        rw [← hafter]
        exact hcut
      refine ⟨⟨⟨_, hcut'.symm⟩, Lexeme.whole hwhole, ?_⟩, hcut'⟩
      intro lx k' hp hl
      rcases number_prefix hc hp hl with hle | ⟨fs, rfl, hfs, hdot⟩
      · exact hle
      · rw [hafter, List.cons_prefix_cons] at hdot
        obtain ⟨f, fs', rfl⟩ := List.exists_cons_of_ne_nil hfs.1
        obtain ⟨rfl, -⟩ := List.cons_prefix_cons.1 hdot.2
        simp [hfs.2 f (by simp)] at hd
  · next _ _ _ hnot =>
    cases hn
    refine ⟨⟨⟨_, hcut.symm⟩, Lexeme.whole hwhole, ?_⟩, hcut⟩
    intro lx k' hp hl
    rcases number_prefix hc hp hl with hle | ⟨fs, rfl, hfs, hdot⟩
    · exact hle
    · -- digits after a point would have taken the first branch
      obtain ⟨f, fs', rfl⟩ := List.exists_cons_of_ne_nil hfs.1
      obtain ⟨rest, hrest⟩ := hdot
      have hlen := congrArg List.length hrest
      exact (hnot f (fs' ++ rest) (by simp at hlen ⊢; omega) (by simpa using hrest.symm)
        (proof_irrel_heq _ _)).elim

/-- A word takes all the letters, digits and `_` there. -/
theorem longest_word {c : Char} (r : List Char) (hc : isWordStart c = true) :
    Longest (c :: r) (word c r).2.1 (word c r).1 ∧
      c :: r = (word c r).2.1 ++ (word c r).2.2.1 := by
  refine ⟨⟨List.cons_prefix_cons.2 ⟨rfl, List.takeWhile_prefix _⟩,
    Lexeme.word hc fun d hd => List.mem_takeWhile_imp hd, ?_⟩, by simp [word, dropRest]⟩
  intro lx k' hp hl
  obtain ⟨t, rfl, ht⟩ := Lexeme.of_prefix_cons hp hl
  simpa [word] using (prefix_takeWhile ht (hl.of_wordStart hc).1).length_le

/-- Every lexeme begins with a character that stands alone, a relational character, a quote, a
digit, or a letter or `_`. -/
theorem no_lexeme_unexpected {c : Char} {r : List Char} (hs : single? c = none)
    (hr : ¬ Relational c) (hq : c ≠ '"') (hd : c.isDigit = false) (hw : isWordStart c = false) :
    ∀ lx k, lx <+: c :: r → ¬ Lexeme lx k := by
  intro lx k hp hl
  obtain ⟨t, rfl, -⟩ := Lexeme.of_prefix_cons hp hl
  rcases hl.cons_cases with ⟨-, hs'⟩ | ⟨hr', -⟩ | ⟨hw', -⟩ | ⟨hq', -⟩ | ⟨hd', -⟩
  · simp [hs] at hs'
  · exact hr hr'
  · simp [hw] at hw'
  · exact hq hq'
  · simp [hd] at hd'

/-- The longest lexeme at a place is one text of one kind. -/
theorem Longest.unique {cs lx lx' : List Char} {k k' : TokenKind} (h : Longest cs lx k)
    (h' : Longest cs lx' k') : lx = lx' ∧ k = k' := by
  have hlen : lx.length = lx'.length :=
    Nat.le_antisymm (h'.longest h.isPrefix h.lexeme) (h.longest h'.isPrefix h'.lexeme)
  have hlx : lx = lx' :=
    (List.prefix_of_prefix_length_le h.isPrefix h'.isPrefix hlen.le).eq_of_length hlen
  subst hlx
  exact ⟨rfl, h.lexeme.unique h'.lexeme⟩

/-! ## One token -/

/-- What one call of `token` at the place `p` promises for the text `c :: r`: the longest lexeme
there, with its span and the place after it; or, when it fails, that no lexeme begins there. -/
def TokenSpec (c : Char) (r : List Char) (p : Pos) :
    Except LexError (Token × Rest r × Pos) → Prop
  | .ok (t, s, q) => ∃ lx, Longest (c :: r) lx t.kind ∧ c :: r = lx ++ s.1 ∧
      t.span = p.spanTo (p.stepAll lx) ∧ q = p.stepAll lx
  | .error _ => ∀ lx k, lx <+: c :: r → ¬ Lexeme lx k

theorem TokenSpec.of_longest {c : Char} {r lx : List Char} {p : Pos} {k : TokenKind} {s : Rest r}
    (h : Longest (c :: r) lx k ∧ c :: r = lx ++ s.1) :
    TokenSpec c r p (.ok (⟨k, p.spanTo (p.stepAll lx)⟩, s, p.stepAll lx)) :=
  ⟨lx, h.1, h.2, rfl, rfl⟩

theorem token_spec (c : Char) (r : List Char) (p : Pos) : TokenSpec c r p (token c r p) := by
  unfold token
  dsimp only
  split
  · next k hk => exact TokenSpec.of_longest ⟨longest_single r hk, rfl⟩
  · next hk =>
    split_ifs with h₁ h₂ h₃ h₄ h₅ h₆ h₇
    · subst h₁
      rcases hw : withEqual r .equalEqual .equal with ⟨k, s⟩
      exact TokenSpec.of_longest (longest_withEqual (.inl rfl) ⟨rfl, rfl⟩ ⟨rfl, rfl⟩ hw)
    · subst h₂
      rcases hw : withEqual r .bangEqual .bang with ⟨k, s⟩
      exact TokenSpec.of_longest
        (longest_withEqual (.inr (.inl rfl)) ⟨rfl, rfl⟩ ⟨rfl, rfl⟩ hw)
    · subst h₃
      rcases hw : withEqual r .lessEqual .less with ⟨k, s⟩
      exact TokenSpec.of_longest
        (longest_withEqual (.inr (.inr (.inl rfl))) ⟨rfl, rfl⟩ ⟨rfl, rfl⟩ hw)
    · subst h₄
      rcases hw : withEqual r .greaterEqual .greater with ⟨k, s⟩
      exact TokenSpec.of_longest
        (longest_withEqual (.inr (.inr (.inr rfl))) ⟨rfl, rfl⟩ ⟨rfl, rfl⟩ hw)
    · subst h₅
      split
      · next hnone => exact no_lexeme_unterminated hnone
      · next x s hcons => exact TokenSpec.of_longest (longest_string hcons)
    · rcases hn : number c r with ⟨k, text, s⟩
      have h := longest_number r h₆
      rw [hn] at h
      exact TokenSpec.of_longest h
    · rcases hw : word c r with ⟨k, text, s⟩
      have h := longest_word r h₇
      rw [hw] at h
      exact TokenSpec.of_longest h
    · exact no_lexeme_unexpected hk (by rintro (h | h | h | h) <;> contradiction) h₅
        (by simpa using h₆) (by simpa using h₇)

/-! ## Reading the whole text -/

theorem line_split {body rest r : List Char} (h : body ++ rest = r)
    (hbody : ∀ d ∈ body, d ≠ '\n') (hrest : ∀ d ∈ rest.head?, d = '\n') :
    r.takeWhile (· != '\n') = body ∧ r.dropWhile (· != '\n') = rest := by
  subst h
  have hp : ∀ d ∈ body, (d != '\n') = true := fun d hd => bne_iff_ne.2 (hbody d hd)
  have ht : (body ++ rest).takeWhile (· != '\n') = body := by
    cases rest with
    | nil => simpa using List.takeWhile_eq_self_iff.2 hp
    | cons d rest =>
      obtain rfl : d = '\n' := hrest d (by simp)
      exact takeWhile_eq_of_prefix (⟨rest, by simp⟩ : body ++ ['\n'] <+: _) hp (by simp)
  refine ⟨ht, ?_⟩
  have hsplit := @List.takeWhile_append_dropWhile _ (· != '\n') (body ++ rest)
  rw [ht] at hsplit
  exact List.append_cancel_left hsplit

theorem Cuts.eq_finish {before cs : List Char} {toks : List Token} (h : Cuts before cs toks)
    (hcs : cs = []) : toks = [⟨.eof, spanAfter before []⟩] := by
  cases h with
  | finish => rfl
  | blank => cases hcs
  | comment => cases hcs
  | token _ hl _ => exact absurd (List.append_eq_nil_iff.1 hcs).1 hl.lexeme.ne_nil

theorem Cuts.of_blank {before r : List Char} {c : Char} {toks : List Token}
    (hc : isBlank c = true) (h : Cuts before (c :: r) toks) : Cuts (before ++ [c]) r toks := by
  obtain ⟨cs, hcs, h⟩ : ∃ cs, cs = c :: r ∧ Cuts before cs toks := ⟨_, rfl, h⟩
  cases h with
  | finish => cases hcs
  | blank _ hrest =>
    obtain ⟨rfl, rfl⟩ := List.cons.inj hcs
    exact hrest
  | comment =>
    obtain ⟨rfl, -⟩ := List.cons.inj hcs
    exact absurd hc (by decide)
  | token _ hl _ =>
    obtain ⟨t, rfl, -⟩ := Lexeme.of_prefix_cons (hcs ▸ hl.isPrefix) hl.lexeme
    simp [hl.lexeme.not_blank] at hc

theorem Cuts.of_comment {before r : List Char} {toks : List Token}
    (h : Cuts before ('/' :: '/' :: r) toks) :
    Cuts (before ++ '/' :: '/' :: r.takeWhile (· != '\n')) (r.dropWhile (· != '\n')) toks := by
  obtain ⟨cs, hcs, h⟩ : ∃ cs, cs = '/' :: '/' :: r ∧ Cuts before cs toks := ⟨_, rfl, h⟩
  cases h with
  | finish => cases hcs
  | blank hb _ =>
    obtain ⟨rfl, -⟩ := List.cons.inj hcs
    exact absurd hb (by decide)
  | comment hbody hrest hnext =>
    obtain ⟨rfl, rfl⟩ := line_split (by simpa using hcs) hbody hrest
    exact hnext
  | token hnc _ _ => exact absurd (hcs ▸ ⟨r, rfl⟩) hnc

theorem Cuts.of_token {before r : List Char} {c : Char} {toks : List Token}
    (hb : isBlank c = false) (hcm : ¬ (c = '/' ∧ r.head? = some '/'))
    (h : Cuts before (c :: r) toks) :
    ∃ lx rest k toks', c :: r = lx ++ rest ∧ Longest (c :: r) lx k ∧
      Cuts (before ++ lx) rest toks' ∧ toks = ⟨k, spanAfter before lx⟩ :: toks' := by
  obtain ⟨cs, hcs, h⟩ : ∃ cs, cs = c :: r ∧ Cuts before cs toks := ⟨_, rfl, h⟩
  cases h with
  | finish => cases hcs
  | blank hb' _ =>
    obtain ⟨rfl, -⟩ := List.cons.inj hcs
    simp [hb'] at hb
  | comment =>
    obtain ⟨rfl, rfl⟩ := List.cons.inj hcs
    exact absurd ⟨rfl, rfl⟩ hcm
  | token _ hl hnext => exact ⟨_, _, _, _, hcs.symm, hcs ▸ hl, hnext, rfl⟩

theorem not_comment_prefix {c : Char} {r : List Char} (hcm : ¬ (c = '/' ∧ r.head? = some '/')) :
    ¬ ['/', '/'] <+: c :: r := by
  rintro ⟨rest, hrest⟩
  simp only [List.cons_append, List.nil_append, List.cons.injEq] at hrest
  obtain ⟨rfl, rfl⟩ := hrest
  exact hcm ⟨rfl, rfl⟩

/-- The reader's loop, from any place with any tokens already read, reads the rest of the text
exactly as `Cuts` does. -/
theorem tokensFrom_eq_ok_iff {cs : List Char} {p : Pos} {acc out : Array Token}
    {before : List Char} (hp : p = place before) :
    tokensFrom cs p acc = .ok out ↔
      ∃ toks, out.toList = acc.toList ++ toks ∧ Cuts before cs toks := by
  induction cs, p, acc using tokensFrom.induct generalizing before out with
  | case1 p acc =>
    subst hp
    have hend : (place before).spanTo (place before) = spanAfter before [] := by
      simpa using spanTo_place before []
    simp only [tokensFrom, hend, Except.ok.injEq]
    constructor
    · rintro rfl
      exact ⟨_, by simp, .finish⟩
    · rintro ⟨toks, hout, h⟩
      rw [h.eq_finish rfl] at hout
      exact Array.toList_inj.1 (by simp [hout])
  | case2 p acc c r hb ih =>
    rw [tokensFrom, if_pos hb, ih (by rw [hp, place_step])]
    exact exists_congr fun toks => and_congr_right fun _ => ⟨Cuts.blank hb, Cuts.of_blank hb⟩
  | case3 p acc c r hb hcm s =>
    rename_i ih
    obtain ⟨rfl, hr⟩ := hcm
    obtain ⟨r, rfl⟩ : ∃ r', r = '/' :: r' := by
      cases r with
      | nil => cases hr
      | cons d r' => cases hr; exact ⟨r', rfl⟩
    have hdrop : (skipComment ('/' :: r)).1 = r.dropWhile (· != '\n') := by
      simp [skipComment, dropRest]
    have htake : ('/' :: r).take (('/' :: r).length - (skipComment ('/' :: r)).1.length) =
        '/' :: r.takeWhile (· != '\n') := by
      rw [hdrop]
      exact take_length_sub (by simp)
    have hplace : p.stepAll ('/' :: ('/' :: r).take (('/' :: r).length -
        (skipComment ('/' :: r)).1.length)) =
        place (before ++ '/' :: '/' :: r.takeWhile (· != '\n')) := by
      rw [htake, hp, place_stepAll]
    rw [tokensFrom, if_neg hb, if_pos ⟨rfl, rfl⟩]
    dsimp only
    rw [ih hplace, hdrop]
    refine exists_congr fun toks => and_congr_right fun _ => ⟨fun h => ?_, Cuts.of_comment⟩
    have hcut := Cuts.comment (fun d hd => by simpa using List.mem_takeWhile_imp hd)
      (fun d hd => ?_) h
    · rwa [List.cons_append, List.cons_append, List.takeWhile_append_dropWhile] at hcut
    · -- the text after a comment begins with the line feed that ends it
      have hne : r.dropWhile (· != '\n') ≠ [] := by
        rintro hnil
        simp [hnil] at hd
      have := List.head_dropWhile_not (· != '\n') hne
      rw [List.head?_eq_some_head hne, Option.mem_def, Option.some.injEq] at hd
      simpa [hd] using this
  | case4 p acc c r hb hcm e he =>
    rw [tokensFrom, if_neg hb, if_neg hcm, he]
    simp only [reduceCtorEq, false_iff, not_exists, not_and]
    intro toks _ h
    obtain ⟨lx, -, k, -, -, hl, -⟩ := Cuts.of_token (Bool.eq_false_iff.2 hb) hcm h
    have hs := token_spec c r p
    rw [he] at hs
    exact hs lx k hl.isPrefix hl.lexeme
  | case5 p acc c r hb hcm t s q ht ih =>
    obtain ⟨lx, hl, hsplit, hspan, hq⟩ : TokenSpec c r p (.ok (t, s, q)) :=
      ht ▸ token_spec c r p
    obtain ⟨k, sp⟩ := t
    dsimp only at hl hspan
    have hq' : q = place (before ++ lx) := by rw [hq, hp, place_stepAll]
    have hsp : sp = spanAfter before lx := by rw [hspan, hp, place_stepAll, spanTo_place]
    subst hsp
    rw [tokensFrom, if_neg hb, if_neg hcm, ht]
    dsimp only
    rw [ih hq']
    constructor
    · rintro ⟨toks, hout, h⟩
      refine ⟨⟨k, spanAfter before lx⟩ :: toks, by simp [hout], ?_⟩
      rw [hsplit] at hl ⊢
      exact Cuts.token (hsplit ▸ not_comment_prefix hcm) hl h
    · rintro ⟨toks, hout, h⟩
      obtain ⟨lx', rest, k', toks', hsplit', hl', h', rfl⟩ :=
        Cuts.of_token (Bool.eq_false_iff.2 hb) hcm h
      obtain ⟨rfl, rfl⟩ := hl.unique hl'
      obtain rfl : rest = s.1 := List.append_cancel_left (hsplit'.symm.trans hsplit)
      exact ⟨toks', by simp [hout], h'⟩

/-! ## What a reading shows -/

theorem keyword?_render {n : String} {k : TokenKind} (h : TokenKind.keyword? n = some k) :
    k.render = n := by
  unfold TokenKind.keyword? at h
  split at h <;> cases h <;> rfl

theorem keyword?_ne_eof (n : String) : TokenKind.keyword? n ≠ some .eof := by
  intro h
  unfold TokenKind.keyword? at h
  split at h <;> cases h

theorem Lexeme.render_toList {lx : List Char} {k : TokenKind} (h : Lexeme lx k)
    (hk : ∀ x, k ≠ .number x) : k.render.toList = lx := by
  cases h with
  | symbol hs => cases k <;> simp [TokenKind.isSymbol] at hs <;> rfl
  | @word c cs _ _ =>
    cases hkw : TokenKind.keyword? (String.ofList (c :: cs)) with
    | none => simp [TokenKind.render]
    | some k' => simp [keyword?_render hkw]
  | string => simp [TokenKind.render]
  | whole => exact absurd rfl (hk _)
  | fraction => exact absurd rfl (hk _)

theorem Lexeme.ne_eof {lx : List Char} {k : TokenKind} (h : Lexeme lx k) : k ≠ .eof := by
  cases h with
  | symbol hs =>
    rintro rfl
    cases hs
  | @word c cs _ _ =>
    cases hkw : TokenKind.keyword? (String.ofList (c :: cs)) with
    | none => simp
    | some k' =>
      rintro rfl
      exact keyword?_ne_eof _ (by simpa using hkw)
  | string => simp
  | whole => simp
  | fraction => simp

theorem bytesIn_append (a b o : Nat) (xs ys : List Char) :
    bytesIn a b o (xs ++ ys) = bytesIn a b o xs ++ bytesIn a b (o + byteWidth xs) ys := by
  induction xs generalizing o with
  | nil => simp [bytesIn]
  | cons c xs ih => simp [bytesIn, ih, Nat.add_assoc]

theorem bytesIn_of_le {a b o : Nat} {xs : List Char} (h : o + byteWidth xs ≤ a) :
    bytesIn a b o xs = [] := by
  induction xs generalizing o with
  | nil => rfl
  | cons c xs ih =>
    have hc := Char.utf8Size_pos c
    simp only [byteWidth_cons] at h
    simp only [bytesIn, ih (by omega : o + c.utf8Size + byteWidth xs ≤ a), List.append_nil]
    rw [if_neg (by omega)]

theorem bytesIn_of_ge {a b o : Nat} {xs : List Char} (h : b ≤ o) : bytesIn a b o xs = [] := by
  induction xs generalizing o with
  | nil => rfl
  | cons c xs ih =>
    have hc := Char.utf8Size_pos c
    simp only [bytesIn, ih (by omega : b ≤ o + c.utf8Size), List.append_nil]
    rw [if_neg (by omega)]

theorem bytesIn_of_within {a b o : Nat} {xs : List Char} (ha : a ≤ o)
    (hb : o + byteWidth xs ≤ b) : bytesIn a b o xs = xs := by
  induction xs generalizing o with
  | nil => rfl
  | cons c xs ih =>
    simp only [byteWidth_cons] at hb
    simp only [bytesIn, ih (by omega : a ≤ o + c.utf8Size) (by omega)]
    rw [if_pos (by omega)]
    rfl

theorem bytesIn_spanAfter (before piece rest : List Char) :
    bytesIn (spanAfter before piece).start (spanAfter before piece).stop 0
      (before ++ piece ++ rest) = piece := by
  simp only [spanAfter, bytesIn_append, byteWidth_append, Nat.zero_add]
  have h₁ : bytesIn (byteWidth before) (byteWidth before + byteWidth piece) 0 before = [] :=
    bytesIn_of_le (by simp)
  have h₂ : bytesIn (byteWidth before) (byteWidth before + byteWidth piece) (byteWidth before)
      piece = piece := bytesIn_of_within (Nat.le_refl _) (Nat.le_refl _)
  have h₃ : bytesIn (byteWidth before) (byteWidth before + byteWidth piece)
      (byteWidth before + byteWidth piece) rest = [] := bytesIn_of_ge (Nat.le_refl _)
  rw [h₁, h₂, h₃]
  simp

/-- A reading ends with the end token at the end of the text, and has no other. -/
theorem Cuts.ends_with_eof {before cs : List Char} {toks : List Token} (h : Cuts before cs toks) :
    ∃ init, toks = init ++ [⟨.eof, spanAfter (before ++ cs) []⟩] ∧
      ∀ t ∈ init, t.kind ≠ .eof := by
  induction h with
  | finish => exact ⟨[], by simp, by simp⟩
  | blank _ _ ih => simpa using ih
  | comment _ _ _ ih => simpa using ih
  | @token before lx cs toks k _ hl _ ih =>
    obtain ⟨init, rfl, hne⟩ := ih
    refine ⟨⟨k, spanAfter before lx⟩ :: init, by simp, ?_⟩
    rintro t (_ | ⟨_, ht⟩)
    · exact hl.lexeme.ne_eof
    · exact hne t ht

/-- Each token of a reading other than a number or the end shows the text its span covers. -/
theorem Cuts.render_eq_bytesIn {before cs : List Char} {toks : List Token}
    (h : Cuts before cs toks) :
    ∀ t ∈ toks, t.kind ≠ .eof → (∀ x, t.kind ≠ .number x) →
      t.kind.render.toList = bytesIn t.span.start t.span.stop 0 (before ++ cs) := by
  induction h with
  | finish =>
    intro t ht hne
    simp only [List.mem_singleton] at ht
    exact absurd (ht ▸ rfl) hne
  | blank _ _ ih => simpa using ih
  | comment _ _ _ ih => simpa using ih
  | @token before lx cs toks k _ hl _ ih =>
    intro t ht hne hnum
    rcases List.mem_cons.1 ht with rfl | ht
    · rw [hl.lexeme.render_toList hnum, ← List.append_assoc, bytesIn_spanAfter]
    · simpa using ih t ht hne hnum

end Lexer

/-- The reader cuts a source exactly as `Lexer.Cuts` does. -/
theorem tokenize_eq_ok_iff_cuts {s : String} {toks : List Token} :
    tokenize s = .ok toks ↔ Lexer.Cuts [] s.toList toks := by
  have hloop : Lexer.tokensFrom s.toList Pos.origin #[] = .ok toks.toArray ↔
      Lexer.Cuts [] s.toList toks := by
    rw [Lexer.tokensFrom_eq_ok_iff Lexer.place_nil.symm]
    simp
  rw [← hloop]
  unfold tokenize
  cases Lexer.tokensFrom s.toList Pos.origin #[] with
  | error e => simp [Except.map]
  | ok out => simp [Except.map, ← Array.toList_inj]

/-- The reader is the longest-match reader of the token grammar: it succeeds exactly on the
sources that `Lexer.Cuts` cuts, and gives that cutting; its list then ends with exactly one end
token, and every token other than a number or the end shows the text its span covers. -/
theorem tokenize_longest_match (s : String) (toks : List Token) :
    (tokenize s = .ok toks ↔ Lexer.Cuts [] s.toList toks) ∧
      (tokenize s = .ok toks →
        (∃ init, toks = init ++ [⟨.eof, Lexer.spanAfter s.toList []⟩] ∧
          ∀ t ∈ init, t.kind ≠ .eof) ∧
        ∀ t ∈ toks, t.kind ≠ .eof → (∀ x, t.kind ≠ .number x) →
          t.kind.render.toList = Lexer.bytesIn t.span.start t.span.stop 0 s.toList) := by
  refine ⟨tokenize_eq_ok_iff_cuts, fun h => ?_⟩
  have hcuts := tokenize_eq_ok_iff_cuts.1 h
  exact ⟨by simpa using hcuts.ends_with_eof, by simpa using hcuts.render_eq_bytesIn⟩

end StackScript
