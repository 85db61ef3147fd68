import FlowTypes.Proofs.DecimalText
import FlowTypes.Proofs.Grammar
import FlowTypes.Proofs.Identifiers

/-!
# How texts are cut into tokens

`Token.spellings` one token at a time : what a text that starts with a blank, a mark, a word, a
number or a literal is cut into. A token ends where it seems to if what follows cannot be joined to
it : after a name or a number comes no further name character, and no point that stands before a
digit (`Token.Breaks`).
-/

namespace FlowTypes

open Lexeme (first isBlank isNameChar run)

namespace Lexeme

theorem splitAfter_eq_split_drop : ∀ (n : ℕ) (cs : List Char), splitAfter n cs = split (cs.drop n)
  | 0, _ => by rw [List.drop_zero, split]
  | _ + 1, [] => rfl
  | n + 1, _ :: cs => splitAfter_eq_split_drop n cs

theorem take_run (p : Char → Bool) (cs : List Char) : cs.take (run p cs) = cs.takeWhile p :=
  (List.prefix_iff_eq_take.1 (List.takeWhile_prefix p)).symm

theorem run_append_of_stop {p : Char → Bool} {cs rest : List Char} (hcs : ∀ c ∈ cs, p c = true)
    (hrest : ∀ c ∈ rest.head?, p c = false) : run p (cs ++ rest) = cs.length := by
  rw [run, takeWhile_append_of_stop hcs hrest]

end Lexeme

namespace Token

/-! ## One lexeme at a time -/

/-- Where a text starts does not matter to its tokens. -/
theorem map_spelling_ofLexemes (start start' : ℕ) : ∀ (pending : List Char) (ls : List Lexeme),
    (ofLexemes start pending ls).map spelling = (ofLexemes start' pending ls).map spelling
  | [], [] => rfl
  | _ :: _, [] => rfl
  | pending, ⟨.unknown, text⟩ :: rest => map_spelling_ofLexemes start start' (pending ++ text) rest
  | [], ⟨.trivia, _⟩ :: rest => map_spelling_ofLexemes _ _ [] rest
  | _ :: _, ⟨.trivia, _⟩ :: rest => congrArg (List.cons _) (map_spelling_ofLexemes _ _ [] rest)
  | [], ⟨.token _, _⟩ :: rest => congrArg (List.cons _) (map_spelling_ofLexemes _ _ [] rest)
  | _ :: _, ⟨.token _, _⟩ :: rest =>
    congrArg (fun ts => _ :: _ :: ts) (map_spelling_ofLexemes _ _ [] rest)

theorem spellings_nil : spellings [] = [] := rfl

theorem spellings_of_token {c : Char} {cs : List Char} {kind : Kind} {n : ℕ}
    (h : first c cs = (.token kind, n)) :
    spellings (c :: cs) = ⟨kind, c :: cs.take n⟩ :: spellings (cs.drop n) := by
  simp only [spellings, Lexeme.split, Lexeme.splitAfter, h, ofLexemes, ofGarbage, List.nil_append,
    List.map_cons, Lexeme.splitAfter_eq_split_drop n]
  exact congrArg (List.cons _) (map_spelling_ofLexemes _ _ [] _)

theorem spellings_of_trivia {c : Char} {cs : List Char} {n : ℕ} (h : first c cs = (.trivia, n)) :
    spellings (c :: cs) = spellings (cs.drop n) := by
  simp only [spellings, Lexeme.split, Lexeme.splitAfter, h, ofLexemes, ofGarbage, List.nil_append,
    Lexeme.splitAfter_eq_split_drop n]
  exact map_spelling_ofLexemes _ _ [] _

/-! ## Blanks and marks -/

theorem first_of_isBlank {c : Char} (hc : isBlank c = true) (cs : List Char) :
    first c cs = (.trivia, run isBlank cs) := by
  rw [first, if_pos hc]

/-- A blank is skipped. -/
theorem spellings_blank {c : Char} (hc : isBlank c = true) :
    ∀ cs : List Char, spellings (c :: cs) = spellings cs
  | [] => by rw [spellings_of_trivia (first_of_isBlank hc [])]; rfl
  | c' :: cs => by
    rw [spellings_of_trivia (first_of_isBlank hc _)]
    cases hc' : isBlank c' with
    | false => simp [run, hc']
    | true =>
      rw [spellings_of_trivia (first_of_isBlank hc' cs)]
      simp [run, hc']

/-- The marks that are never joined to what follows. -/
def marks : List (Char × Kind) :=
  [('(', .parenOpen), (')', .parenClose), ('{', .braceOpen), ('}', .braceClose), (',', .comma),
    (':', .colon), ('|', .pipe), ('&', .ampersand), ('-', .minus)]

theorem spellings_mark (c : Char) (kind : Kind) (h : (c, kind) ∈ marks) (cs : List Char) :
    spellings (c :: cs) = ⟨kind, [c]⟩ :: spellings cs := by
  have hfirst : first c cs = (.token kind, 0) := by
    simp only [marks, List.mem_cons, Prod.mk.injEq, List.not_mem_nil, or_false] at h
    rcases h with ⟨rfl, rfl⟩ | ⟨rfl, rfl⟩ | ⟨rfl, rfl⟩ | ⟨rfl, rfl⟩ | ⟨rfl, rfl⟩ | ⟨rfl, rfl⟩ |
      ⟨rfl, rfl⟩ | ⟨rfl, rfl⟩ | ⟨rfl, rfl⟩ <;> rfl
  exact spellings_of_token hfirst

theorem spellings_arrow (cs : List Char) :
    spellings ('=' :: '>' :: cs) = ⟨.fatArrow, ['=', '>']⟩ :: spellings cs :=
  have hfirst : first '=' ('>' :: cs) = (.token .fatArrow, 1) := rfl
  spellings_of_token hfirst

theorem spellings_dots (cs : List Char) :
    spellings ('.' :: '.' :: cs) = ⟨.dotDot, ['.', '.']⟩ :: spellings cs :=
  have hfirst : first '.' ('.' :: cs) = (.token .dotDot, 1) := rfl
  spellings_of_token hfirst

theorem spellings_dot {c : Char} (hc : c ≠ '.') (cs : List Char) :
    spellings ('.' :: c :: cs) = ⟨.dot, ['.']⟩ :: spellings (c :: cs) := by
  have hfirst : first '.' (c :: cs) = (.token .dot, 0) := by
    have hpoint : (decide ('.' = '.') && decide ((c :: cs).head? = some '.')) = false := by
      simpa using hc
    change (if _ then _ else _) = _
    rw [hpoint]
    rfl
  exact spellings_of_token hfirst

/-! ## What ends a token -/

/-- Can a text that starts so not be joined to a name or a number before it? -/
structure Breaks (rest : List Char) : Prop where
  name : ∀ c ∈ rest.head?, isNameChar c = false
  point : ∀ c cs, rest = '.' :: c :: cs → c.isDigit = false

theorem breaks_nil : Breaks [] := ⟨nofun, nofun⟩

theorem breaks_cons {c : Char} (hname : isNameChar c = false) (hpoint : c ≠ '.')
    (cs : List Char) : Breaks (c :: cs) where
  name := by simpa using hname
  point := fun _ _ h => absurd (List.cons.inj h).1 hpoint

/-- A point before anything but a digit. -/
theorem breaks_point {c : Char} (hc : c.isDigit = false) (cs : List Char) :
    Breaks ('.' :: c :: cs) where
  name := by simp; rfl
  point := fun c' cs' h => (List.cons.inj (List.cons.inj h).2).1 ▸ hc

/-! ## Words -/

/-- Characters that a class tells apart are not the same. -/
theorem ne_of_class {p : Char → Bool} {c d : Char} (hc : p c = true) (hd : p d = false) : c ≠ d := by
  rintro rfl
  exact Bool.noConfusion (hc.symm.trans hd)

theorem isBlank_eq_false {p : Char → Bool} {c : Char} (hc : p c = true)
    (hblanks : [' ', '\t', '\r', '\n'].all (!p ·) = true) : isBlank c = false := by
  simp only [List.all_cons, List.all_nil, Bool.and_true, Bool.and_eq_true, Bool.not_eq_true'] at hblanks
  simp [isBlank, ne_of_class hc hblanks.1, ne_of_class hc hblanks.2.1, ne_of_class hc hblanks.2.2.1,
    ne_of_class hc hblanks.2.2.2]

theorem first_of_isAlpha {c : Char} (hc : c.isAlpha = true) (cs : List Char) :
    first c cs = (.token (Lexeme.wordKind (c :: cs.take (run isNameChar cs))),
      run isNameChar cs) := by
  simp [first, isBlank_eq_false hc rfl, ne_of_class (d := '/') hc rfl, hc]

theorem first_underscore {cs : List Char} (hcs : run isNameChar cs ≠ 0) :
    first '_' cs = (.token .ident, run isNameChar cs) := by
  have hblank : isBlank '_' = false := rfl
  have halpha : '_'.isAlpha = false := rfl
  simp [first, hblank, halpha, hcs]

/-- A word ends where its characters do. -/
theorem spellings_word {c : Char} {cs rest : List Char} (hc : c.isAlpha = true)
    (hcs : cs.all isNameChar = true) (hrest : Breaks rest) :
    spellings (c :: (cs ++ rest)) = ⟨Lexeme.wordKind (c :: cs), c :: cs⟩ :: spellings rest := by
  have hrun : run isNameChar (cs ++ rest) = cs.length :=
    Lexeme.run_append_of_stop (List.all_eq_true.1 hcs) hrest.name
  rw [spellings_of_token (first_of_isAlpha hc (cs ++ rest)), hrun, List.take_left, List.drop_left]

/-! ## Names -/

/-- A name ends where its characters do. -/
theorem first_append_of_name {c : Char} {cs rest : List Char}
    (hc : c.isAlpha = true ∧ Lexeme.wordKind (c :: cs) = .ident ∨ c = '_' ∧ cs ≠ [])
    (hcs : ∀ x ∈ cs, isNameChar x = true) (hrest : ∀ x ∈ rest.head?, isNameChar x = false) :
    first c (cs ++ rest) = (.token .ident, cs.length) := by
  have hrun : run isNameChar (cs ++ rest) = cs.length := Lexeme.run_append_of_stop hcs hrest
  rcases hc with ⟨halpha, hkind⟩ | ⟨rfl, hne⟩
  · rw [first_of_isAlpha halpha, hrun, List.take_left, hkind]
  · rw [first_underscore (by rw [hrun]; exact fun h => hne (List.length_eq_zero_iff.1 h)), hrun]

/-- The characters of names. -/
theorem isIdentifier_iff {name : String} : isIdentifier name = true ↔
    ∃ c cs, name.toList = c :: cs ∧ (∀ x ∈ cs, isNameChar x = true) ∧
      (c.isAlpha = true ∧ Lexeme.wordKind (c :: cs) = .ident ∨ c = '_' ∧ cs ≠ []) := by
  constructor
  · intro h
    have hname := IsName.of_isIdentifier h
    obtain ⟨c, cs, he, hc⟩ := hname.start
    refine ⟨c, cs, he, fun x hx => hname.name_chars x (he ▸ List.mem_cons_of_mem c hx), ?_⟩
    refine hc.imp (fun halpha => ⟨halpha, he ▸ hname.not_keyword c cs he halpha⟩) ?_
    rintro rfl
    refine ⟨rfl, ?_⟩
    rintro rfl
    obtain rfl : name = "_" := String.toList_inj.1 he
    exact absurd h (by decide)
  · rintro ⟨c, cs, he, hcs, hc⟩
    have hfirst : first c cs = (.token .ident, cs.length) := by
      have happend := @first_append_of_name c cs [] hc hcs nofun
      rwa [List.append_nil] at happend
    have hlex : lex name = [⟨.ident, 0, name.toList⟩] := by
      simp [lex, Lexeme.split, he, Lexeme.splitAfter, hfirst, ofLexemes, ofGarbage,
        Lexeme.splitAfter_eq_split_drop cs.length]
    exact decide_eq_true hlex

theorem spellings_name {name : String} {rest : List Char} (h : isIdentifier name = true)
    (hrest : Breaks rest) :
    spellings (name.toList ++ rest) = ⟨.ident, name.toList⟩ :: spellings rest := by
  obtain ⟨c, cs, he, hcs, hc⟩ := isIdentifier_iff.1 h
  rw [he, List.cons_append, spellings_of_token (first_append_of_name hc hcs hrest.name),
    List.take_left, List.drop_left]

/-- A lexeme starts where it was found. -/
theorem exists_first_of_mem_splitAfter {l : Lexeme} {skip : ℕ} {cs : List Char}
    (h : l ∈ Lexeme.splitAfter skip cs) :
    ∃ c cs n, first c cs = (l.role, n) ∧ l.text = c :: cs.take n := by
  fun_induction Lexeme.splitAfter skip cs with
  | case1 => cases h
  | case2 c cs role n hfirst ih =>
    rcases List.mem_cons.1 h with rfl | h
    · exact ⟨c, cs, n, hfirst, rfl⟩
    · exact ih h
  | case3 skip c cs ih => exact ih h

/-- A token is garbage or one of the lexemes. -/
theorem mem_of_mem_ofLexemes {t : Token} (hkind : t.kind ≠ .garbage) :
    ∀ {start : ℕ} {pending : List Char} {ls : List Lexeme}, t ∈ ofLexemes start pending ls →
      ⟨.token t.kind, t.text⟩ ∈ ls
  | _, _, [], h => absurd h (notMem_ofGarbage hkind)
  | _, _, ⟨.unknown, _⟩ :: _, h => List.mem_cons_of_mem _ (mem_of_mem_ofLexemes hkind h)
  | _, _, ⟨.trivia, _⟩ :: _, h => by
    rcases List.mem_append.1 h with h | h
    · exact absurd h (notMem_ofGarbage hkind)
    · exact List.mem_cons_of_mem _ (mem_of_mem_ofLexemes hkind h)
  | _, _, ⟨.token _, _⟩ :: _, h => by
    rcases List.mem_append.1 h with h | h
    · exact absurd h (notMem_ofGarbage hkind)
    · rcases List.mem_cons.1 h with rfl | h
      · exact List.mem_cons_self
      · exact List.mem_cons_of_mem _ (mem_of_mem_ofLexemes hkind h)
where
  notMem_ofGarbage {t : Token} {start : ℕ} {cs : List Char} (hkind : t.kind ≠ .garbage) :
      t ∉ ofGarbage start cs := by
    cases cs with
    | nil => exact List.not_mem_nil
    | cons c cs =>
      intro h
      rw [List.mem_singleton.1 h] at hkind
      exact hkind rfl

/-- The tokens of a text that are names are identifiers. -/
theorem isIdentifier_of_mem_spellings {cs : List Char} {s : Spelling} (hs : s ∈ spellings cs)
    (hkind : s.kind = .ident) : isIdentifier (String.ofList s.text) = true := by
  obtain ⟨t, ht, rfl⟩ := List.mem_map.1 hs
  have hmem := mem_of_mem_ofLexemes (t := t) (by rw [show t.kind = .ident from hkind]; nofun) ht
  rw [show t.kind = .ident from hkind] at hmem
  obtain ⟨c, cs, n, hfirst, htext⟩ := exists_first_of_mem_splitAfter hmem
  obtain ⟨rfl, hc⟩ := run_of_first hfirst
  have htake := Lexeme.take_run isNameChar cs
  refine isIdentifier_iff.2 ⟨c, cs.takeWhile isNameChar, ?_, fun x => List.mem_takeWhile_imp, ?_⟩
  · rw [String.toList_ofList, ← htake]
    exact htext
  · rw [htake] at hc
    exact hc.imp_right fun h => ⟨h.1, fun hnil => h.2 (by rw [run, hnil]; rfl)⟩

/-! ## Numbers -/

theorem isNameChar_of_isDigit {c : Char} (hc : c.isDigit = true) : isNameChar c = true := by
  simp only [isNameChar, Char.isAlphanum, hc, Bool.or_true, Bool.true_or]

theorem first_of_isDigit {c : Char} (hc : c.isDigit = true) (cs : List Char) :
    first c cs = (.token .number, Lexeme.numberLength cs) := by
  have halpha : c.isAlpha = false :=
    Bool.eq_false_iff.2 fun h => Bool.noConfusion (hc.symm.trans (isDigit_of_isAlpha h))
  simp [first, isBlank_eq_false hc rfl, ne_of_class (d := '/') hc rfl, halpha,
    ne_of_class (d := '_') hc rfl, hc]

theorem Breaks.digit {rest : List Char} (h : Breaks rest) : ∀ c ∈ rest.head?, c.isDigit = false :=
  fun c hc => Bool.eq_false_iff.2 fun hdigit =>
    Bool.noConfusion ((isNameChar_of_isDigit hdigit).symm.trans (h.name c hc))

theorem Breaks.fractionLength {rest : List Char} (h : Breaks rest) :
    Lexeme.fractionLength rest = 0 := by
  unfold Lexeme.fractionLength
  split
  · next c cs => rw [h.point c cs rfl]; rfl
  · rfl

theorem Breaks.exponentLength {rest : List Char} (h : Breaks rest) :
    Lexeme.exponentLength rest = 0 := by
  unfold Lexeme.exponentLength
  split
  · next mark c cs =>
    have hmark : isNameChar mark = false := h.name mark rfl
    have hne : ¬(decide (mark = 'e') || decide (mark = 'E')) = true := by
      simp only [Bool.or_eq_true, decide_eq_true_eq]
      rintro (rfl | rfl) <;> cases hmark
    rw [if_neg hne]
  · rfl

/-- A decimal ends where its digits do. -/
theorem spellings_decimal (d : Decimal) {rest : List Char} (hrest : Breaks rest) :
    spellings (d.write ++ rest) = ⟨.number, d.write⟩ :: spellings rest := by
  have hspell : ∀ {c : Char} {cs : List Char}, c.isDigit = true →
      Lexeme.numberLength (cs ++ rest) = cs.length →
        spellings (c :: (cs ++ rest)) = ⟨.number, c :: cs⟩ :: spellings rest := by
    intro c cs hc hlength
    rw [spellings_of_token (first_of_isDigit hc _), hlength, List.take_left, List.drop_left]
  obtain ⟨c, cs, hdigits, h | ⟨f, fs, h, hfraction⟩⟩ := d.write_cases
  · obtain ⟨hc, hcs⟩ := List.forall_mem_cons.1 hdigits
    rw [h]
    refine hspell hc ?_
    simp only [Lexeme.numberLength, Lexeme.run_append_of_stop hcs hrest.digit, List.drop_left,
      hrest.fractionLength, hrest.exponentLength, Nat.add_zero]
  · obtain ⟨hc, hcs⟩ := List.forall_mem_cons.1 hdigits
    obtain ⟨hf, hfs⟩ := List.forall_mem_cons.1 hfraction
    rw [h]
    refine @hspell c (cs ++ '.' :: f :: fs) hc ?_
    have hwhole : run Char.isDigit (cs ++ '.' :: f :: (fs ++ rest)) = cs.length :=
      Lexeme.run_append_of_stop hcs (by simp)
    have hlength : Lexeme.fractionLength ('.' :: f :: (fs ++ rest)) = 2 + fs.length := by
      simp only [Lexeme.fractionLength, hf, if_true, Lexeme.run_append_of_stop hfs hrest.digit]
    have hdrop : (cs ++ '.' :: f :: (fs ++ rest)).drop (cs.length + (2 + fs.length)) = rest := by
      rw [← List.drop_drop, List.drop_left]
      simp [Nat.add_comm 2]
    simp only [List.append_assoc, List.cons_append, Lexeme.numberLength, hwhole, List.drop_left,
      hlength, hdrop, hrest.exponentLength, Nat.add_zero, List.length_append, List.length_cons]
    omega

/-! ## Literals -/

/-- What is quoted, of readable characters, ends at the closing quote. -/
theorem literalLength_append (rest : List Char) : ∀ {cs : List Char},
    (∀ c ∈ cs, Quoted.isReadable c = true) →
      Lexeme.literalLength (cs.flatMap Quoted.escape ++ '"' :: rest) =
        ((cs.flatMap Quoted.escape).length + 1, true)
  | [], _ => rfl
  | c :: cs, h => by
    obtain ⟨hc, hcs⟩ := List.forall_mem_cons.1 h
    have ih := literalLength_append rest hcs
    rw [List.flatMap_cons, List.append_assoc]
    rcases Quoted.escape_of_isReadable hc with ⟨k, hk, -, he⟩ | ⟨hquote, hback, he⟩
    · simp [he, Lexeme.literalLength, hk, ih]
    · simp [he, Lexeme.literalLength, hback, ih]

/-- A quoted text of readable characters is a token. -/
theorem spellings_quoted {s : String} (hs : ∀ c ∈ s.toList, Quoted.isReadable c = true)
    (rest : List Char) :
    spellings ((Quoted.write s).toList ++ rest) =
      ⟨.string, (Quoted.write s).toList⟩ :: spellings rest := by
  obtain ⟨cs, hcs⟩ : ∃ cs, cs = s.toList.flatMap Quoted.escape ++ ['"'] := ⟨_, rfl⟩
  have hlength : Lexeme.literalLength (cs ++ rest) = (cs.length, true) := by
    rw [hcs, List.append_assoc, List.length_append]
    exact literalLength_append rest hs
  have hfirst : first '"' (cs ++ rest) = (.token .string, cs.length) := by
    change (if (Lexeme.literalLength _).2 then _ else _, (Lexeme.literalLength _).1) = _
    rw [hlength]
    rfl
  have hwrite : (Quoted.write s).toList = '"' :: cs := by
    rw [Quoted.write, String.toList_ofList, hcs, List.cons_append]
  rw [hwrite, List.cons_append, spellings_of_token hfirst, List.take_left, List.drop_left]

end Token

end FlowTypes
