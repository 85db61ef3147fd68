import FlowTypes.Proofs.TypeMembership
import Mathlib.Data.List.TakeWhile

/-!
# Identifiers

What `isIdentifier` says of the characters of a name (`IsName.of_isIdentifier`) : it starts with a
letter or an underscore, goes on with name characters, and is no keyword (`isName_ne_keyword`).
The proof reads the lexer backwards : unknown characters would leave a token of their own
(`garbage_of_pending`), and blanks would move the name away from the start
(`le_start_of_mem_ofLexemes`). What starts with a character is one of the cases of `Lexeme.Starts`.
-/

namespace FlowTypes

namespace Lexeme

/-! ## The cases of a lexeme -/

/-- What can start with a character before others, and how many of these belong to it. -/
inductive Starts (c : Char) (cs : List Char) : Role → ℕ → Prop
  | blanks (hc : isBlank c = true) : Starts c cs .trivia (run isBlank cs)
  | comment (hc : c = '/') (hcs : cs.head? = some '/') : Starts c cs .trivia (run (· ≠ '\n') cs)
  | word (hc : c.isAlpha = true) :
      Starts c cs (.token (wordKind (c :: cs.take (run isNameChar cs)))) (run isNameChar cs)
  | name (hc : c = '_') (hcs : run isNameChar cs ≠ 0) :
      Starts c cs (.token .ident) (run isNameChar cs)
  | number (hc : c.isDigit = true) : Starts c cs (.token .number) (numberLength cs)
  | literal {n : ℕ} (hc : c = '"') (hcs : literalLength cs = (n, true)) :
      Starts c cs (.token .string) n
  | unclosed {n : ℕ} (hc : c = '"') (hcs : literalLength cs = (n, false)) : Starts c cs .unknown n
  | arrow (hc : c = '=') (hcs : cs.head? = some '>') : Starts c cs (.token .fatArrow) 1
  | dots (hc : c = '.') (hcs : cs.head? = some '.') : Starts c cs (.token .dotDot) 1
  | mark {kind : Token.Kind} (hc : markKind? c = some kind) : Starts c cs (.token kind) 0
  | unknown : Starts c cs .unknown 0

theorem starts_of_first {c : Char} {cs : List Char} {role : Role} {n : ℕ}
    (h : first c cs = (role, n)) : Starts c cs role n := by
  unfold first at h
  simp only [Bool.and_eq_true, decide_eq_true_eq] at h
  split_ifs at h with hblank hcomment halpha hname hdigit hquote hclosed harrow hdots
  · cases h
    exact .blanks hblank
  · cases h
    exact .comment hcomment.1 hcomment.2
  · cases h
    exact .word halpha
  · cases h
    exact .name hname.1 hname.2
  · cases h
    exact .number hdigit
  · cases h
    exact .literal hquote (Prod.ext rfl hclosed)
  · cases h
    exact .unclosed hquote (Prod.ext rfl (Bool.eq_false_iff.2 hclosed))
  · cases h
    exact .arrow harrow.1 harrow.2
  · cases h
    exact .dots hdots.1 hdots.2
  · split at h
    · next hmark =>
      cases h
      exact .mark hmark
    · cases h
      exact .unknown

theorem markKind?_ne {c : Char} {kind : Token.Kind} (h : markKind? c = some kind) :
    kind ≠ .ident ∧ kind ≠ .garbage := by
  unfold markKind? at h
  split at h <;> cases h <;> exact ⟨nofun, nofun⟩

end Lexeme

namespace Token

/-! ## Where tokens come from -/

/-- Unknown characters that are pending end up in the first token. -/
theorem garbage_of_pending : ∀ (lexemes : List Lexeme) (start : ℕ) {pending : List Char},
    pending ≠ [] → ∃ t ts, ofLexemes start pending lexemes = t :: ts ∧ t.kind = .garbage
  | [], _, _ :: _, _ => ⟨_, _, rfl, rfl⟩
  | ⟨.unknown, _⟩ :: rest, start, c :: _, _ =>
    garbage_of_pending rest start (List.cons_ne_nil c _)
  | ⟨.trivia, _⟩ :: _, _, _ :: _, _ => ⟨_, _, rfl, rfl⟩
  | ⟨.token _, _⟩ :: _, _, _ :: _, _ => ⟨_, _, rfl, rfl⟩
  | _, _, [], h => absurd rfl h

/-- Tokens start where the lexemes do, or later. -/
theorem le_start_of_mem_ofLexemes : ∀ (lexemes : List Lexeme) (start : ℕ) (pending : List Char),
    ∀ t ∈ ofLexemes start pending lexemes, start ≤ t.start
  | [], start, pending, t, ht => le_start_of_mem_garbage ht
  | ⟨.unknown, text⟩ :: rest, start, pending, t, ht =>
    le_start_of_mem_ofLexemes rest start (pending ++ text) t ht
  | ⟨.trivia, _⟩ :: rest, start, pending, t, ht => by
    rcases List.mem_append.1 ht with ht | ht
    · exact le_start_of_mem_garbage ht
    · have := le_start_of_mem_ofLexemes rest _ _ t ht
      omega
  | ⟨.token _, _⟩ :: rest, start, pending, t, ht => by
    rcases List.mem_append.1 ht with ht | ht
    · exact le_start_of_mem_garbage ht
    · rcases List.mem_cons.1 ht with rfl | ht
      · exact Nat.le_add_right _ _
      · have := le_start_of_mem_ofLexemes rest _ _ t ht
        omega
where
  le_start_of_mem_garbage {start : ℕ} {pending : List Char} {t : Token}
      (ht : t ∈ ofGarbage start pending) : start ≤ t.start := by
    cases pending with
    | nil => simp [ofGarbage] at ht
    | cons c cs =>
      simp only [ofGarbage, List.mem_singleton] at ht
      rw [ht]

end Token

/-! ## Names -/

/-- The characters of a name that is no keyword. -/
structure IsName (cs : List Char) : Prop where
  start : ∃ c rest, cs = c :: rest ∧ (c.isAlpha = true ∨ c = '_')
  name_chars : ∀ c ∈ cs, Lexeme.isNameChar c = true
  not_keyword : ∀ c rest, cs = c :: rest → c.isAlpha = true → Lexeme.wordKind cs = .ident

theorem isNameChar_of_isAlpha {c : Char} (hc : c.isAlpha = true) : Lexeme.isNameChar c = true := by
  simp only [Lexeme.isNameChar, Char.isAlphanum, hc, Bool.true_or]

theorem all_isNameChar_of_take_run {cs : List Char}
    (h : cs.take (Lexeme.run Lexeme.isNameChar cs) = cs) :
    ∀ c ∈ cs, Lexeme.isNameChar c = true := by
  have htake : cs.takeWhile Lexeme.isNameChar = cs := by
    refine (List.takeWhile_prefix _).eq_of_length ?_
    have hlen := congrArg List.length h
    rw [List.length_take] at hlen
    have hle := (List.takeWhile_prefix Lexeme.isNameChar : cs.takeWhile _ <+: cs).length_le
    rw [Lexeme.run] at hlen
    omega
  exact List.takeWhile_eq_self_iff.1 htake

/-- A lexeme of the kind of names takes all name characters that follow its first one. -/
theorem run_of_first {c : Char} {cs : List Char} {n : ℕ}
    (h : Lexeme.first c cs = (.token .ident, n)) : n = Lexeme.run Lexeme.isNameChar cs ∧
      (c.isAlpha = true ∧ Lexeme.wordKind (c :: cs.take n) = .ident ∨ c = '_' ∧ n ≠ 0) := by
  have hcases : ∀ kind, Lexeme.Starts c cs (.token kind) n → kind = .ident →
      n = Lexeme.run Lexeme.isNameChar cs ∧
        (c.isAlpha = true ∧ Lexeme.wordKind (c :: cs.take n) = .ident ∨ c = '_' ∧ n ≠ 0) := by
    intro kind hstarts hkind
    cases hstarts with
    | word hc => exact ⟨rfl, .inl ⟨hc, hkind⟩⟩
    | name hc hcs => exact ⟨rfl, .inr ⟨hc, hcs⟩⟩
    | mark hc => exact absurd hkind (Lexeme.markKind?_ne hc).1
    | _ => cases hkind
  exact hcases _ (Lexeme.starts_of_first h) rfl

/-- A lexeme of the kind of names, taking all of the text, is a name. -/
theorem isName_of_first {c : Char} {cs : List Char} {n : ℕ}
    (h : Lexeme.first c cs = (.token .ident, n)) (hall : cs.take n = cs) : IsName (c :: cs) := by
  obtain ⟨rfl, hc⟩ := run_of_first h
  have hcs := all_isNameChar_of_take_run hall
  rw [hall] at hc
  rcases hc with ⟨halpha, hkind⟩ | ⟨rfl, -⟩
  · exact ⟨⟨c, cs, rfl, Or.inl halpha⟩,
      List.forall_mem_cons.2 ⟨isNameChar_of_isAlpha halpha, hcs⟩, fun _ _ _ _ => hkind⟩
  · refine ⟨⟨'_', cs, rfl, Or.inr rfl⟩, List.forall_mem_cons.2 ⟨rfl, hcs⟩, fun c' rest he hc' => ?_⟩
    rw [← (List.cons.inj he).1] at hc'
    cases hc'

/-- What is read as one name is made like a name. -/
theorem IsName.of_isIdentifier {name : String} (h : isIdentifier name = true) :
    IsName name.toList := by
  have hlex : Token.ofLexemes 0 [] (Lexeme.splitAfter 0 name.toList) =
      [⟨.ident, 0, name.toList⟩] := of_decide_eq_true h
  clear h
  generalize name.toList = cs at hlex ⊢
  cases cs with
  | nil => cases hlex
  | cons c cs =>
    obtain ⟨⟨role, n⟩, hfirst⟩ : ∃ r, Lexeme.first c cs = r := ⟨_, rfl⟩
    simp only [Lexeme.splitAfter, hfirst] at hlex
    cases role with
    | token kind =>
      simp only [Token.ofLexemes, Token.ofGarbage, List.nil_append, List.cons.injEq,
        Token.mk.injEq] at hlex
      obtain ⟨⟨rfl, -, -, hall⟩, -⟩ := hlex
      exact isName_of_first hfirst hall
    | trivia =>
      -- The name would start after the blanks.
      simp only [Token.ofLexemes, Token.ofGarbage, List.nil_append] at hlex
      have hmem := Token.le_start_of_mem_ofLexemes _ _ _ _ (hlex ▸ List.mem_singleton_self _)
      have := c.utf8Size_pos
      simp only [byteLength_cons, byteLength_nil] at hmem
      omega
    | unknown =>
      simp only [Token.ofLexemes, List.nil_append] at hlex
      obtain ⟨t, ts, he, hk⟩ := Token.garbage_of_pending _ 0 (List.cons_ne_nil c (cs.take n))
      rw [he] at hlex
      rw [(List.cons.inj hlex).1] at hk
      cases hk

/-- The characters of a name do not spell a keyword. -/
theorem IsName.ne_keyword {cs word : List Char} (h : IsName cs)
    (hword : Lexeme.wordKind word ≠ .ident) (hletter : word.head?.any Char.isAlpha = true) :
    cs ≠ word := by
  rintro rfl
  obtain ⟨c, rest, rfl, -⟩ := h.start
  exact hword (h.not_keyword c rest rfl hletter)

/-- No letter is a digit. -/
theorem isDigit_of_isAlpha {c : Char} (hc : c.isAlpha = true) : c.isDigit = false := by
  change (decide (c.val ≥ 'A'.val ∧ c.val ≤ 'Z'.val) ||
    (c.val ≥ 'a'.val && c.val ≤ 'z'.val)) = true at hc
  simp only [Bool.or_eq_true, Bool.and_eq_true, decide_eq_true_eq, ge_iff_le,
    UInt32.le_iff_toNat_le] at hc
  refine Bool.eq_false_iff.2 fun hdigit => ?_
  have hle : c.val.toNat ≤ 57 := (Char.isDigit_iff_toNat.1 hdigit).2
  have hA : 'A'.val.toNat = 65 := rfl
  have ha : 'a'.val.toNat = 97 := rfl
  omega

theorem IsName.head_not_digit {c : Char} {cs : List Char} (h : IsName (c :: cs)) :
    c.isDigit = false := by
  obtain ⟨c', rest, he, hc⟩ := h.start
  rw [(List.cons.inj he).1]
  rcases hc with hc | rfl
  · exact isDigit_of_isAlpha hc
  · rfl

end FlowTypes
