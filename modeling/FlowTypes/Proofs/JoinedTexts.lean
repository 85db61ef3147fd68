import FlowTypes.Proofs.DefinitionGrammar
import FlowTypes.Proofs.LexicalCut

/-!
# Texts joined by a newline

The tokens of two texts with a newline between them are those of the first and those of the second,
moved (`Token.lex_newline`), if no token of the first is garbage. The newline ends every lexeme that
can stand before it but one, a text literal that does not close, and that one is garbage. So what
starts with a character is the same with the newline and without (`Lexeme.first_newline`), and the
rest is an induction on the text, one lexeme after the other.

No token is garbage of what the grammar can read (`Grammar.clean_expression`,
`Grammar.clean_definitions`).
-/

namespace FlowTypes

open Lexeme (first isBlank isNameChar run)

namespace Lexeme

/-! ## Lexemes before a newline -/

section Lengths

variable {p : Char → Bool} {cs : List Char} {n : ℕ}

theorem run_le (p : Char → Bool) (cs : List Char) : run p cs ≤ cs.length :=
  (List.takeWhile_prefix p).length_le

theorem fractionLength_le (cs : List Char) : fractionLength cs ≤ cs.length := by
  unfold fractionLength
  split
  · next c cs =>
    have := run_le Char.isDigit cs
    split_ifs <;> simp only [List.length_cons] <;> omega
  · exact Nat.zero_le _

theorem exponentLength_le (cs : List Char) : exponentLength cs ≤ cs.length := by
  unfold exponentLength
  split
  · next c cs =>
    have := run_le Char.isDigit cs
    split_ifs
    · simp only [List.length_cons]
      omega
    · split <;> simp only [List.length_cons] <;> omega
    · exact Nat.zero_le _
    · exact Nat.zero_le _
  · exact Nat.zero_le _

theorem numberLength_le (cs : List Char) : numberLength cs ≤ cs.length := by
  have hwhole := run_le Char.isDigit cs
  have hfraction := fractionLength_le (cs.drop (run Char.isDigit cs))
  have hexponent := exponentLength_le (cs.drop (run Char.isDigit cs +
    fractionLength (cs.drop (run Char.isDigit cs))))
  rw [List.length_drop] at hfraction hexponent
  simp only [numberLength]
  omega

theorem literalLength_le (cs : List Char) : (literalLength cs).1 ≤ cs.length := by
  fun_induction literalLength cs with
  | case1 => exact Nat.le_refl _
  | case2 | case3 | case4 => simp only [List.length_cons]; omega
  | case5 c cs _ n closed hlength ih =>
    rw [hlength] at ih
    simp only [List.length_cons]
    omega
  | case6 c cs _ _ _ n closed hlength ih =>
    rw [hlength] at ih
    simp only [List.length_cons]
    omega

/-- A lexeme is not longer than the text. -/
theorem length_le_of_first {c : Char} {role : Role} (h : first c cs = (role, n)) :
    n ≤ cs.length := by
  cases starts_of_first h with
  | blanks | comment | word | name => exact run_le _ cs
  | number => exact numberLength_le cs
  | literal _ hcs | unclosed _ hcs =>
    have hle := literalLength_le cs
    rwa [hcs] at hle
  | arrow _ hcs | dots _ hcs =>
    obtain ⟨ds, rfl⟩ := List.head?_eq_some_iff.1 hcs
    exact Nat.le_add_left 1 _
  | mark | unknown => exact Nat.zero_le _

end Lengths

section Newline

variable (cs ds : List Char)

theorem run_newline {p : Char → Bool} (hp : p '\n' = false) :
    run p (cs ++ '\n' :: ds) = run p cs := by
  induction cs with
  | nil => simp [run, hp]
  | cons c cs ih =>
    simp only [run, List.cons_append, List.takeWhile_cons] at ih ⊢
    split <;> simp [ih]

theorem fractionLength_newline : fractionLength (cs ++ '\n' :: ds) = fractionLength cs := by
  match cs with
  | [] => cases ds <;> rfl
  | [c] =>
    by_cases hc : c = '.'
    · subst hc
      rfl
    · simp [fractionLength, hc]
  | c :: d :: cs =>
    by_cases hc : c = '.'
    · subst hc
      simp only [fractionLength, List.cons_append, run_newline cs ds (p := Char.isDigit) rfl]
    · simp [fractionLength, hc]

theorem exponentLength_newline : exponentLength (cs ++ '\n' :: ds) = exponentLength cs := by
  match cs with
  | [] => cases ds <;> rfl
  | [c] =>
    have hnewline : '\n'.isDigit = false := rfl
    simp [exponentLength, hnewline]
  | mark :: c :: cs =>
    have hrun : run Char.isDigit (cs ++ '\n' :: ds) = run Char.isDigit cs := run_newline cs ds rfl
    simp only [exponentLength, List.cons_append, hrun]

theorem numberLength_newline : numberLength (cs ++ '\n' :: ds) = numberLength cs := by
  have hwhole := run_le Char.isDigit cs
  have hfraction := fractionLength_le (cs.drop (run Char.isDigit cs))
  rw [List.length_drop] at hfraction
  simp only [numberLength]
  rw [run_newline cs ds rfl, List.drop_append_of_le_length hwhole, fractionLength_newline,
    List.drop_append_of_le_length (by omega), exponentLength_newline]

theorem head?_newline {c : Char} (hc : c ≠ '\n') :
    (cs ++ '\n' :: ds).head? = some c ↔ cs.head? = some c := by
  cases cs with
  | nil => simp [hc.symm]
  | cons => rfl

/-- A text literal that closes is not longer if the text goes on. -/
theorem literalLength_append_of_closed {cs : List Char} {n : ℕ} (rest : List Char)
    (h : literalLength cs = (n, true)) : literalLength (cs ++ rest) = (n, true) := by
  rw [← List.take_append_drop n cs, List.append_assoc]
  exact literalLength_take_append _ h

/-- What starts with a character that is no blank is the same before a newline, unless it is
unknown. -/
theorem first_newline {c : Char} (hblank : isBlank c = false) (hknown : (first c cs).1 ≠ .unknown) :
    first c (cs ++ '\n' :: ds) = first c cs := by
  by_cases hc : c = '"'
  · subst hc
    have hclosed : literalLength cs = ((literalLength cs).1, true) :=
      Prod.ext rfl (by_contra fun hopen => hknown (if_neg hopen))
    change (if (literalLength _).2 then _ else _, (literalLength _).1) =
      (if (literalLength _).2 then _ else _, (literalLength _).1)
    rw [literalLength_append_of_closed _ hclosed, hclosed]
  · have hname := run_newline cs ds (p := isNameChar) rfl
    have hcomment := run_newline cs ds (p := (· ≠ '\n')) rfl
    simp only [first, hblank, hc, Bool.false_eq_true, if_false, hname, hcomment,
      numberLength_newline, head?_newline cs ds (c := '/') (by decide),
      head?_newline cs ds (c := '>') (by decide), head?_newline cs ds (c := '.') (by decide),
      List.take_append_of_le_length (run_le isNameChar cs)]

end Newline

end Lexeme

namespace Token

/-! ## Tokens of a text that starts anywhere -/

/-- The token, so many bytes further on. -/
def moved (k : ℕ) (t : Token) : Token := { t with start := t.start + k }

@[simp] theorem moved_kind (k : ℕ) (t : Token) : (t.moved k).kind = t.kind := rfl

@[simp] theorem moved_text (k : ℕ) (t : Token) : (t.moved k).text = t.text := rfl

/-- The tokens of a text that starts at the given byte. -/
def lexAt (start : ℕ) (cs : List Char) : List Token := ofLexemes start [] (Lexeme.split cs)

variable {start : ℕ} {c : Char} {cs ds : List Char} {kind : Kind} {n : ℕ}

theorem moved_ofGarbage (k start : ℕ) : ∀ pending : List Char,
    ofGarbage (start + k) pending = (ofGarbage start pending).map (moved k)
  | [] => rfl
  | _ :: _ => rfl

theorem moved_ofLexemes (k : ℕ) : ∀ (ls : List Lexeme) (start : ℕ) (pending : List Char),
    ofLexemes (start + k) pending ls = (ofLexemes start pending ls).map (moved k)
  | [], start, pending => moved_ofGarbage k start pending
  | ⟨.unknown, text⟩ :: ls, start, pending => moved_ofLexemes k ls start (pending ++ text)
  | ⟨.trivia, text⟩ :: ls, start, pending => by
    rw [ofLexemes, ofLexemes, List.map_append, ← moved_ofGarbage, ← moved_ofLexemes k ls,
      Nat.add_right_comm start k, Nat.add_right_comm _ k]
  | ⟨.token kind, text⟩ :: ls, start, pending => by
    simp only [ofLexemes, List.map_append, List.map_cons]
    rw [← moved_ofGarbage, ← moved_ofLexemes k ls, Nat.add_right_comm start k,
      Nat.add_right_comm _ k]
    rfl

/-- The tokens of a text further on are moved. -/
theorem lexAt_add (k start : ℕ) (cs : List Char) :
    lexAt (start + k) cs = (lexAt start cs).map (moved k) :=
  moved_ofLexemes k _ start []

theorem lexAt_of_token (h : first c cs = (.token kind, n)) (start : ℕ) : lexAt start (c :: cs) =
    ⟨kind, start, c :: cs.take n⟩ :: lexAt (start + byteLength (c :: cs.take n)) (cs.drop n) := by
  simp only [lexAt, Lexeme.split, Lexeme.splitAfter, h, ofLexemes, ofGarbage, List.nil_append,
    Lexeme.splitAfter_eq_split_drop n, byteLength_nil, Nat.add_zero]

theorem lexAt_of_trivia (h : first c cs = (.trivia, n)) (start : ℕ) :
    lexAt start (c :: cs) = lexAt (start + byteLength (c :: cs.take n)) (cs.drop n) := by
  simp only [lexAt, Lexeme.split, Lexeme.splitAfter, h, ofLexemes, ofGarbage, List.nil_append,
    Lexeme.splitAfter_eq_split_drop n, byteLength_nil, Nat.add_zero]

theorem lexAt_of_isBlank (hc : isBlank c = true) :
    ∀ cs : List Char, lexAt start (c :: cs) = lexAt (start + c.utf8Size) cs
  | [] => by rw [lexAt_of_trivia (first_of_isBlank hc [])]; rfl
  | c' :: cs => by
    rw [lexAt_of_trivia (first_of_isBlank hc _)]
    cases hc' : isBlank c' with
    | false => simp [run, hc']
    | true =>
      rw [lexAt_of_trivia (first_of_isBlank hc' cs)]
      simp [run, hc', Nat.add_assoc]

/-- What is unknown starts a token of garbage. -/
theorem exists_garbage_of_unknown (h : first c cs = (.unknown, n)) (start : ℕ) :
    ∃ t ∈ lexAt start (c :: cs), t.kind = .garbage := by
  simp only [lexAt, Lexeme.split, Lexeme.splitAfter, h, ofLexemes, List.nil_append]
  obtain ⟨t, ts, hts, hkind⟩ := garbage_of_pending (Lexeme.splitAfter n cs) start
    (List.cons_ne_nil c (cs.take n))
  exact ⟨t, hts ▸ List.mem_cons_self, hkind⟩

/-- If no token is garbage, then a newline ends the text, and the next starts after it. -/
theorem lexAt_newline (ds : List Char) : ∀ (cs : List Char) (start : ℕ),
    (∀ t ∈ lexAt start cs, t.kind ≠ .garbage) → lexAt start (cs ++ '\n' :: ds) =
      lexAt start cs ++ lexAt (start + byteLength cs + 1) ds
  | [], start, _ => lexAt_of_isBlank rfl ds
  | c :: cs, start, hknown => by
    cases hblank : isBlank c with
    | true =>
      rw [lexAt_of_isBlank hblank] at hknown
      rw [List.cons_append, lexAt_of_isBlank hblank, lexAt_of_isBlank hblank,
        lexAt_newline ds cs _ hknown, byteLength_cons, Nat.add_assoc start]
    | false =>
      obtain ⟨⟨role, n⟩, hfirst⟩ : ∃ r, first c cs = r := ⟨_, rfl⟩
      have hn := Lexeme.length_le_of_first hfirst
      have hnewline : role ≠ .unknown → first c (cs ++ '\n' :: ds) = (role, n) := fun hrole =>
        (Lexeme.first_newline cs ds hblank (by rwa [hfirst])).trans hfirst
      have hend : start + byteLength (c :: cs) =
          start + byteLength (c :: cs.take n) + byteLength (cs.drop n) := by
        rw [Nat.add_assoc, ← byteLength_append, List.cons_append, List.take_append_drop]
      cases role with
      | unknown =>
        obtain ⟨t, ht, hkind⟩ := exists_garbage_of_unknown hfirst start
        exact absurd hkind (hknown t ht)
      | trivia =>
        rw [lexAt_of_trivia hfirst] at hknown ⊢
        rw [List.cons_append, lexAt_of_trivia (hnewline nofun), List.take_append_of_le_length hn,
          List.drop_append_of_le_length hn, lexAt_newline ds (cs.drop n) _ hknown, hend]
      | token kind =>
        rw [lexAt_of_token hfirst] at hknown ⊢
        rw [List.cons_append, lexAt_of_token (hnewline nofun), List.take_append_of_le_length hn,
          List.drop_append_of_le_length hn,
          lexAt_newline ds (cs.drop n) _ (List.forall_mem_cons.1 hknown).2, hend, List.cons_append]
termination_by cs => cs.length

/-- The tokens of two texts with a newline between them, if none of the first is garbage. -/
theorem lex_newline {source : String} (more : String)
    (hknown : ∀ t ∈ lex source, t.kind ≠ .garbage) : lex (source ++ "\n" ++ more) =
      lex source ++ (lex more).map (moved (source.utf8ByteSize + 1)) := by
  have htext : (source ++ "\n" ++ more).toList = source.toList ++ '\n' :: more.toList := by
    simp
  have h := lexAt_newline more.toList source.toList 0 hknown
  rw [byteLength_toList, Nat.zero_add, ← Nat.zero_add (source.utf8ByteSize + 1), lexAt_add] at h
  rw [lex, htext]
  exact h

/-- The same, apart from places. -/
theorem spellings_newline (hknown : ∀ s ∈ spellings cs, s.kind ≠ .garbage) (ds : List Char) :
    spellings (cs ++ '\n' :: ds) = spellings cs ++ spellings ds := by
  have h := lexAt_newline ds cs 0 fun t ht => hknown t.spelling (List.mem_map_of_mem ht)
  have hmap := congrArg (List.map spelling) h
  rw [List.map_append] at hmap
  exact hmap.trans (congrArg (_ ++ ·) (map_spelling_ofLexemes _ _ [] _))

end Token

/-! ## No garbage can be read -/

/-- Is none of the tokens garbage that are read so? -/
def Phrase.Clean {α : Type} (phrase : Phrase α) : Prop :=
  ∀ ws a, phrase ws a → ∀ s ∈ ws, s.kind ≠ .garbage

namespace Grammar

variable {α : Type} {item : Phrase α} {inner : Phrase Expr}

theorem clean_token {kind : Token.Kind} {cs : List Char} (hkind : kind ≠ .garbage) :
    ∀ s ∈ [(⟨kind, cs⟩ : Token.Spelling)], s.kind ≠ .garbage :=
  List.forall_mem_singleton.2 hkind

theorem Enclosed.clean {opening closing : Token.Kind} {ws : List Token.Spelling} {a : α}
    (h : Enclosed opening closing item ws a) (hitem : item.Clean) (hopening : opening ≠ .garbage)
    (hclosing : closing ≠ .garbage) : ∀ s ∈ ws, s.kind ≠ .garbage := by
  cases h with
  | intro cs ds ha =>
    exact List.forall_mem_cons.2
      ⟨hopening, List.forall_mem_append.2 ⟨hitem _ _ ha, clean_token hclosing⟩⟩

theorem AfterEach.clean {separator : Token.Kind} {ws : List Token.Spelling} {as : List α}
    (h : AfterEach separator item ws as) (hitem : item.Clean) (hseparator : separator ≠ .garbage) :
    ∀ s ∈ ws, s.kind ≠ .garbage := by
  induction h with
  | nil => exact List.forall_mem_nil _
  | cons cs ha hmore ih =>
    exact List.forall_mem_cons.2 ⟨hseparator, List.forall_mem_append.2 ⟨hitem _ _ ha, ih⟩⟩

theorem clean_listed (h : item.Clean) : (Listed item : Phrase (List α)).Clean := by
  intro ws as has
  induction has with
  | nil => exact List.forall_mem_nil _
  | last ha => exact h _ _ ha
  | cons cs ha hmore ih =>
    exact List.forall_mem_append.2 ⟨h _ _ ha, List.forall_mem_cons.2 ⟨nofun, ih⟩⟩

theorem clean_number : Number.Clean := by
  have hsign : Sign.Clean := by
    rintro _ _ (_ | _)
    · exact List.forall_mem_nil _
    · exact clean_token nofun
  rintro _ _ (⟨h, -⟩ | ⟨cs, h⟩ | _)
  · exact List.forall_mem_append.2 ⟨hsign _ _ h, clean_token nofun⟩
  · exact List.forall_mem_append.2 ⟨hsign _ _ h, clean_token nofun⟩
  · exact clean_token nofun

theorem clean_range : Range.Clean := by
  rintro _ _ ⟨cs, hlo, hhi, -⟩
  exact List.forall_mem_append.2
    ⟨clean_number _ _ hlo, List.forall_mem_cons.2 ⟨nofun, clean_number _ _ hhi⟩⟩

theorem clean_atom : Atom.Clean := by
  intro ws t h
  cases h with
  | word cs h => exact clean_token (by rintro rfl; cases h)
  | literal h => exact clean_number _ _ h
  | interval h => exact clean_range _ _ h
  | integers cs h =>
    exact List.forall_mem_cons.2 ⟨nofun, h.clean clean_range nofun nofun⟩
  | text => exact clean_token nofun

theorem clean_name : Name.Clean := by
  rintro _ _ ⟨cs⟩
  exact clean_token nofun

theorem clean_field (h : inner.Clean) : (Field inner).Clean := by
  rintro _ _ ⟨cs, hname, he⟩
  exact List.forall_mem_append.2
    ⟨clean_name _ _ hname, List.forall_mem_cons.2 ⟨nofun, h _ _ he⟩⟩

theorem clean_arm (h : inner.Clean) : (Arm inner).Clean := by
  have hbinding : Binding.Clean := by
    rintro _ _ (_ | ⟨cs, hname⟩)
    · exact List.forall_mem_nil _
    · exact List.forall_mem_cons.2 ⟨nofun, clean_name _ _ hname⟩
  rintro _ _ ⟨cs, hpattern, hbound, hresult⟩
  exact List.forall_mem_append.2 ⟨h _ _ hpattern, List.forall_mem_append.2
    ⟨hbinding _ _ hbound, List.forall_mem_cons.2 ⟨nofun, h _ _ hresult⟩⟩⟩

theorem clean_joined {join : List Expr → Expr} {separator : Token.Kind}
    (hseparator : separator ≠ .garbage) (h : inner.Clean) :
    (Joined join separator inner).Clean := by
  rintro _ _ (he | ⟨he, hmore, -⟩)
  · exact h _ _ he
  · exact List.forall_mem_append.2 ⟨h _ _ he, hmore.clean h hseparator⟩

section Rules

variable {inner : Syntax.Braces → Phrase Expr} (hinner : ∀ braces, (inner braces).Clean)
  (braces : Syntax.Braces)
include hinner

theorem clean_primary : (Primary inner braces).Clean := by
  intro ws e h
  cases h with
  | type h => exact clean_atom _ _ h
  | named h => exact clean_name _ _ h
  | call hname hargs =>
    exact List.forall_mem_append.2 ⟨clean_name _ _ hname,
      hargs.clean (clean_listed (hinner braces)) nofun nofun⟩
  | instantiate _ hname hfields =>
    exact List.forall_mem_append.2 ⟨clean_name _ _ hname,
      hfields.clean (clean_listed (clean_field (hinner braces))) nofun nofun⟩
  | select cs hscrutinee harms =>
    exact List.forall_mem_cons.2 ⟨nofun, List.forall_mem_append.2 ⟨hinner _ _ _ hscrutinee,
      harms.clean (clean_listed (clean_arm (hinner braces))) nofun nofun⟩⟩
  | parenthesized h => exact h.clean (hinner _) nofun nofun

theorem clean_operators : (Operators inner braces).Clean := by
  refine clean_joined nofun (clean_joined nofun ?_)
  rintro _ _ ⟨he, hnames⟩
  exact List.forall_mem_append.2
    ⟨clean_primary hinner braces _ _ he, hnames.clean clean_name nofun⟩

end Rules

theorem clean_expression : ∀ (depth : ℕ) (braces : Syntax.Braces),
    (Expression depth braces).Clean
  | 0, _ => nofun
  | depth + 1, braces => clean_operators (clean_expression depth) braces

theorem clean_definitions : Definitions.Clean := by
  have hdefinition : Definition.Clean := by
    intro ws d h
    cases h with
    | ofUnit cs ds span hname =>
      exact List.forall_mem_cons.2
        ⟨nofun, List.forall_mem_append.2 ⟨clean_name _ _ hname, clean_token nofun⟩⟩
    | ofStruct cs span hname hfields =>
      exact List.forall_mem_cons.2 ⟨nofun, List.forall_mem_append.2 ⟨clean_name _ _ hname,
        hfields.clean (clean_listed (clean_field (clean_expression _ _))) nofun nofun⟩⟩
    | ofAlias cs ds es span hname hvalue =>
      exact List.forall_mem_cons.2 ⟨nofun, List.forall_mem_append.2 ⟨clean_name _ _ hname,
        List.forall_mem_cons.2 ⟨nofun,
          List.forall_mem_append.2 ⟨clean_expression _ _ _ _ hvalue, clean_token nofun⟩⟩⟩⟩
  intro ws ds h
  induction h with
  | nil => exact List.forall_mem_nil _
  | cons h _ ih => exact List.forall_mem_append.2 ⟨hdefinition _ _ h, ih⟩

end Grammar

end FlowTypes
