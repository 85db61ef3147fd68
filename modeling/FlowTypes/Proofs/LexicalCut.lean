import FlowTypes.Proofs.Spellings
import Mathlib.Data.String.Basic

/-!
# A text cut into tokens loses nothing

Tokens, blanks and comments make up the whole text, one after the other (`Token.Cut`). Unknown
pieces that touch are joined, so no two tokens of garbage touch. It is an induction on the lexemes
of the text, with the unknown characters that are pending (`Token.cut_ofLexemes`). Where tokens
stand, and what stands between them, is read off the cut (`Token.lex_lossless`).

The text of a token that is not garbage is again a token on its own. The length of a lexeme depends
on no more characters than it has (`Lexeme.Settled`), so `first` finds the same in what it has found
(`Lexeme.first_take`).
-/

namespace FlowTypes

open Lexeme (first isBlank isNameChar run)

namespace Lexeme

/-! ## What the length of a lexeme depends on -/

variable {p : Char → Bool} {c : Char} {cs : List Char} {n : ℕ} {kind : Token.Kind}

/-- Does the length not depend on the characters after it? -/
def Settled (length : List Char → ℕ) : Prop :=
  ∀ (cs : List Char) (n : ℕ), length cs ≤ n → length (cs.take n) = length cs

theorem run_take (p : Char → Bool) (cs : List Char) (n : ℕ) :
    run p (cs.take n) = min n (run p cs) := by
  rw [run, run, ← List.take_takeWhile, List.length_take]

theorem settled_run (p : Char → Bool) : Settled (run p) :=
  fun cs n hn => by rw [run_take, Nat.min_eq_right hn]

/-- A length that is that of two characters and a run of digits, unless it is nothing. -/
theorem settled_of_run {length : List Char → ℕ} {f : Char → Char → ℕ → ℕ} (hnil : length [] = 0)
    (hone : ∀ c, length [c] = 0)
    (hrun : ∀ c d cs, length (c :: d :: cs) = f c d (run Char.isDigit cs))
    (hf : ∀ c d k, f c d k = 2 + k ∨ ∀ j ≤ k, f c d j = 0) : Settled length
  | [], n, _ => by rw [List.take_nil]
  | [c], n, _ => by cases n <;> simp [hnil, hone]
  | c :: d :: cs, n, hn => by
    rw [hrun] at hn ⊢
    obtain hf | hf := hf c d (run Char.isDigit cs)
    · obtain ⟨m, rfl⟩ : ∃ m, n = m + 2 := ⟨n - 2, by omega⟩
      rw [List.take_succ_cons, List.take_succ_cons, hrun, settled_run _ cs m (by omega)]
    · rw [hf _ (Nat.le_refl _)]
      match n with
      | 0 => exact hnil
      | 1 => exact hone c
      | n + 2 =>
        rw [List.take_succ_cons, List.take_succ_cons, hrun, run_take]
        exact hf _ (Nat.min_le_right _ _)

theorem settled_fractionLength : Settled fractionLength := by
  have hpoint : ∀ c cs, c ≠ '.' → fractionLength (c :: cs) = 0 := by
    intro c cs hc
    rw [fractionLength]
    exact fun _ _ h => hc (List.cons.inj h).1
  refine settled_of_run (f := fun c d k => if c = '.' ∧ d.isDigit = true then 2 + k else 0) rfl
    (fun c => ?_) (fun c d cs => ?_) fun c d k => ?_
  · by_cases hc : c = '.'
    · subst hc
      rfl
    · exact hpoint c [] hc
  · by_cases hc : c = '.'
    · subst hc
      simp only [fractionLength, true_and]
    · rw [if_neg fun h => hc h.1, hpoint c _ hc]
  · split_ifs
    · exact .inl rfl
    · exact .inr fun _ _ => rfl

theorem settled_exponentLength : Settled exponentLength := by
  refine settled_of_run (f := fun mark c k =>
    if mark = 'e' || mark = 'E' then
      if c.isDigit then 2 + k
      else if c = '+' || c = '-' then if k = 0 then 0 else 2 + k
      else 0
    else 0) rfl (fun c => rfl) (fun c d cs => ?_) fun c d k => ?_
  · rw [exponentLength]
    cases run Char.isDigit cs <;> rfl
  split_ifs with hmark hdigit hsign hk
  · exact .inl rfl
  · exact .inr fun j hj => if_pos (Nat.le_zero.1 (hk ▸ hj))
  · exact .inl rfl
  · exact .inr fun _ _ => rfl
  · exact .inr fun _ _ => rfl

theorem settled_numberLength : Settled numberLength := by
  intro cs n hn
  have hlength : numberLength cs = run Char.isDigit cs
      + fractionLength (cs.drop (run Char.isDigit cs))
      + exponentLength (cs.drop (run Char.isDigit cs
          + fractionLength (cs.drop (run Char.isDigit cs)))) := rfl
  rw [hlength] at hn
  rw [numberLength, settled_run _ cs n (by omega), List.drop_take,
    settled_fractionLength _ _ (by omega), List.drop_take, settled_exponentLength _ _ (by omega),
    hlength]

/-- A text literal that closes does so in its own text, whatever follows. -/
theorem literalLength_take_append {cs : List Char} {n : ℕ} (rest : List Char)
    (h : literalLength cs = (n, true)) : literalLength (cs.take n ++ rest) = (n, true) := by
  fun_induction literalLength cs generalizing n with
  | case1 | case3 | case4 => cases h
  | case2 =>
    cases h
    rfl
  | case5 c cs hc m closed hlength ih =>
    cases h
    rw [List.take_succ_cons, List.take_succ_cons, List.cons_append, List.cons_append, literalLength,
      if_neg hc, ih hlength]
  | case6 c cs hquote hlast hescape m closed hlength ih =>
    cases h
    have hback : c ≠ '\\' := by
      rintro rfl
      cases cs with
      | nil => exact hlast rfl rfl
      | cons d cs => exact hescape d cs rfl rfl
    rw [List.take_succ_cons, List.cons_append, literalLength, ih hlength]
    · exact hquote
    · exact fun h => absurd h hback
    · exact fun _ _ h => absurd h hback

theorem literalLength_take {cs : List Char} {n : ℕ} (h : literalLength cs = (n, true)) :
    literalLength (cs.take n) = (n, true) := by
  simpa only [List.append_nil] using literalLength_take_append [] h

/-- What starts with a character is the same in its own text. -/
theorem first_take (h : first c cs = (.token kind, n)) :
    first c (cs.take n) = (.token kind, n) := by
  cases starts_of_first h with
  | word hc =>
    rw [Token.first_of_isAlpha hc, settled_run isNameChar cs _ (Nat.le_refl _), List.take_take,
      Nat.min_self]
  | name hc hcs =>
    have hrun := settled_run isNameChar cs _ (Nat.le_refl _)
    rw [← hrun] at hcs
    rw [hc, Token.first_underscore hcs, hrun]
  | number hc => rw [Token.first_of_isDigit hc, settled_numberLength cs _ (Nat.le_refl _)]
  | literal hc hcs =>
    subst hc
    change (if _ then _ else _, _) = _
    rw [literalLength_take hcs]
    rfl
  | arrow hc hcs =>
    obtain ⟨ds, rfl⟩ := List.head?_eq_some_iff.1 hcs
    subst hc
    rfl
  | dots hc hcs =>
    obtain ⟨ds, rfl⟩ := List.head?_eq_some_iff.1 hcs
    subst hc
    rfl
  | mark hc =>
    -- No mark has more to read after it.
    unfold markKind? at hc
    split at hc <;> cases hc <;> rfl

/-! ## What lexemes are -/

/-- Blanks, or a comment. -/
def IsTrivia (cs : List Char) : Prop :=
  (∀ c ∈ cs, isBlank c = true) ∨ ∃ rest, cs = '/' :: '/' :: rest ∧ '\n' ∉ rest

/-- What the roles of lexemes promise. -/
structure Proper (l : Lexeme) : Prop where
  text_ne_nil : l.text ≠ []
  isTrivia : l.role = .trivia → IsTrivia l.text
  not_garbage : l.role ≠ .token .garbage

theorem isTrivia_of_first (h : first c cs = (.trivia, n)) : IsTrivia (c :: cs.take n) := by
  cases starts_of_first h with
  | blanks hc =>
    rw [take_run]
    exact .inl (List.forall_mem_cons.2 ⟨hc, fun x => List.mem_takeWhile_imp⟩)
  | comment hc hcs =>
    obtain ⟨ds, rfl⟩ := List.head?_eq_some_iff.1 hcs
    subst hc
    refine .inr ⟨ds.takeWhile (· ≠ '\n'), by rw [take_run]; rfl, fun hmem => ?_⟩
    simpa using List.mem_takeWhile_imp hmem

theorem wordKind_ne_garbage (word : List Char) : wordKind word ≠ .garbage := by
  unfold wordKind
  split <;> nofun

theorem kind_ne_garbage_of_first (h : first c cs = (.token kind, n)) : kind ≠ .garbage := by
  cases starts_of_first h with
  | word hc => exact wordKind_ne_garbage _
  | mark hc => exact (markKind?_ne hc).2
  | _ => nofun

theorem proper_of_mem_split {l : Lexeme} (h : l ∈ split cs) : l.Proper := by
  obtain ⟨c, cs, n, hfirst, htext⟩ := Token.exists_first_of_mem_splitAfter h
  refine ⟨text_ne_nil_of_mem_splitAfter h, fun hrole => ?_, fun hrole => ?_⟩
  · rw [hrole] at hfirst
    exact htext ▸ isTrivia_of_first hfirst
  · rw [hrole] at hfirst
    exact kind_ne_garbage_of_first hfirst rfl

end Lexeme

namespace Token

/-! ## Texts and tokens -/

theorem byteLength_pos {cs : List Char} (h : cs ≠ []) : 0 < byteLength cs := by
  obtain ⟨c, cs, rfl⟩ := List.exists_cons_of_ne_nil h
  exact Nat.add_pos_left c.utf8Size_pos _

/-- The characters of a text take all of its bytes. -/
theorem byteLength_toList (source : String) : byteLength source.toList = source.utf8ByteSize := by
  have hlength : ∀ cs : List Char, byteLength cs = String.utf8Len cs := by
    intro cs
    induction cs with
    | nil => rfl
    | cons c cs ih => rw [byteLength_cons, String.utf8Len_cons, ih, Nat.add_comm]
  rw [hlength, String.utf8Len_toList]

/-- Does the piece stand in the text at that byte? -/
def StandsAt (cs : List Char) (place : ℕ) (piece : List Char) : Prop :=
  ∃ before after, cs = before ++ piece ++ after ∧ place = byteLength before

section Places

variable {cs piece : List Char} {place : ℕ}

theorem standsAt_append (piece rest : List Char) : StandsAt (piece ++ rest) 0 piece :=
  ⟨[], rest, rfl, rfl⟩

theorem StandsAt.append_left (h : StandsAt cs place piece) (front : List Char) :
    StandsAt (front ++ cs) (byteLength front + place) piece := by
  obtain ⟨before, after, rfl, rfl⟩ := h
  exact ⟨front ++ before, after, by simp only [List.append_assoc], (byteLength_append _ _).symm⟩

theorem StandsAt.stop_le (h : StandsAt cs place piece) :
    place + byteLength piece ≤ byteLength cs := by
  obtain ⟨before, after, rfl, rfl⟩ := h
  rw [byteLength_append, byteLength_append]
  exact Nat.le_add_right _ _

end Places

/-- Is this byte of the text, which starts at byte `start`, one of blanks or of a comment that meet
no token? -/
def InTrivia (start : ℕ) (cs : List Char) (ts : List Token) (i : ℕ) : Prop :=
  ∃ place piece, StandsAt cs place piece ∧ Lexeme.IsTrivia piece ∧
    place ≤ i ∧ i < place + byteLength piece ∧
    ∀ t ∈ ts, t.stop ≤ start + place ∨ start + (place + byteLength piece) ≤ t.start

/-- It still is if the text goes on at the front, with tokens that end there. -/
theorem InTrivia.append_left {start i : ℕ} {front cs : List Char} {us ts : List Token}
    (h : InTrivia (start + byteLength front) cs ts i)
    (hus : ∀ t ∈ us, t.stop ≤ start + byteLength front) :
    InTrivia start (front ++ cs) (us ++ ts) (byteLength front + i) := by
  obtain ⟨place, piece, hplace, hpiece, hle, hlt, hts⟩ := h
  refine ⟨_, piece, hplace.append_left front, hpiece, by omega, by omega, ?_⟩
  refine List.forall_mem_append.2 ⟨fun t ht => ?_, fun t ht => ?_⟩
  · have := hus t ht
    omega
  · have := hts t ht
    omega

/-- Do the tokens, with blanks and comments between them, make up the text that starts at that byte,
so that no two tokens of garbage touch? -/
inductive Cut : ℕ → List Char → List Token → Prop
  | nil (start : ℕ) : Cut start [] []
  | trivia {start : ℕ} {piece rest : List Char} {ts : List Token} (hpiece : Lexeme.IsTrivia piece)
      (hrest : Cut (start + byteLength piece) rest ts) : Cut start (piece ++ rest) ts
  | token {start : ℕ} {text rest : List Char} {ts : List Token} (kind : Kind) (htext : text ≠ [])
      (hfree : kind = .garbage → ∀ u ∈ ts, u.kind = .garbage → start + byteLength text < u.start)
      (hrest : Cut (start + byteLength text) rest ts) :
      Cut start (text ++ rest) (⟨kind, start, text⟩ :: ts)

namespace Cut

variable {start : ℕ} {cs : List Char} {ts : List Token}

theorem le_start (h : Cut start cs ts) : ∀ t ∈ ts, start ≤ t.start := by
  induction h with
  | nil => exact List.forall_mem_nil _
  | trivia _ _ ih => exact fun t ht => Nat.le_of_add_right_le (ih t ht)
  | token kind _ _ _ ih =>
    exact List.forall_mem_cons.2 ⟨Nat.le_refl _, fun t ht => Nat.le_of_add_right_le (ih t ht)⟩

theorem text_ne_nil (h : Cut start cs ts) : ∀ t ∈ ts, t.text ≠ [] := by
  induction h with
  | nil => exact List.forall_mem_nil _
  | trivia _ _ ih => exact ih
  | token kind htext _ _ ih => exact List.forall_mem_cons.2 ⟨htext, ih⟩

/-- Tokens stand in the text where they say. -/
theorem standsAt (h : Cut start cs ts) :
    ∀ t ∈ ts, ∃ place, StandsAt cs place t.text ∧ t.start = start + place := by
  induction h with
  | nil => exact List.forall_mem_nil _
  | @trivia start piece rest ts _ _ ih =>
    intro t ht
    obtain ⟨place, hplace, hstart⟩ := ih t ht
    exact ⟨_, hplace.append_left piece, hstart.trans (Nat.add_assoc _ _ _)⟩
  | @token start text rest ts kind _ _ _ ih =>
    refine List.forall_mem_cons.2 ⟨⟨0, standsAt_append text rest, rfl⟩, fun t ht => ?_⟩
    obtain ⟨place, hplace, hstart⟩ := ih t ht
    exact ⟨_, hplace.append_left text, hstart.trans (Nat.add_assoc _ _ _)⟩

/-- Tokens follow each other, garbage at a distance. -/
theorem pairwise (h : Cut start cs ts) : ts.Pairwise fun t u =>
    t.stop ≤ u.start ∧ (t.kind = .garbage → u.kind = .garbage → t.stop < u.start) := by
  induction h with
  | nil => exact .nil
  | trivia _ _ ih => exact ih
  | token kind _ hfree hrest ih =>
    exact .cons (fun u hu => ⟨hrest.le_start u hu, fun hkind => hfree hkind u hu⟩) ih

/-- What no token covers are blanks and comments, which meet no token. -/
theorem covered (h : Cut start cs ts) : ∀ i < byteLength cs,
    (∃ t ∈ ts, t.start ≤ start + i ∧ start + i < t.stop) ∨ InTrivia start cs ts i := by
  induction h with
  | nil => exact fun i hi => absurd hi (Nat.not_lt_zero i)
  | @trivia start piece rest ts hpiece hrest ih =>
    intro i hi
    rw [byteLength_append] at hi
    by_cases hfront : i < byteLength piece
    · refine .inr ⟨0, piece, standsAt_append piece rest, hpiece, Nat.zero_le i, by omega, ?_⟩
      intro t ht
      have := hrest.le_start t ht
      omega
    · obtain ⟨k, rfl⟩ := Nat.exists_eq_add_of_le (Nat.le_of_not_lt hfront)
      rw [← Nat.add_assoc]
      exact (ih k (by omega)).imp_right fun h => h.append_left (List.forall_mem_nil _)
  | @token start text rest ts kind htext hfree hrest ih =>
    intro i hi
    rw [byteLength_append] at hi
    by_cases hfront : i < byteLength text
    · exact .inl ⟨_, List.mem_cons_self, Nat.le_add_right _ _, Nat.add_lt_add_left hfront start⟩
    · obtain ⟨k, rfl⟩ := Nat.exists_eq_add_of_le (Nat.le_of_not_lt hfront)
      rw [← Nat.add_assoc]
      obtain ⟨t, ht, hcovers⟩ | htrivia := ih k (by omega)
      · exact .inl ⟨t, List.mem_cons_of_mem _ ht, hcovers⟩
      · exact .inr (htrivia.append_left (List.forall_mem_singleton.2 (Nat.le_refl _)))

end Cut

/-! ## Tokens are a cut -/

theorem Cut.ofGarbage {start : ℕ} {pending cs : List Char} {ts : List Token}
    (h : Cut (start + byteLength pending) cs ts)
    (hfree : ∀ u ∈ ts, u.kind = .garbage → start + byteLength pending < u.start) :
    Cut start (pending ++ cs) (ofGarbage start pending ++ ts) := by
  cases pending with
  | nil => exact h
  | cons c pending => exact .token .garbage (List.cons_ne_nil c pending) (fun _ => hfree) h

theorem cut_ofLexemes : ∀ (ls : List Lexeme) (start : ℕ) (pending : List Char),
    (∀ l ∈ ls, l.Proper) →
      Cut start (pending ++ ls.flatMap (·.text)) (ofLexemes start pending ls)
  | [], start, pending, _ => by
    have h := (Cut.nil (start + byteLength pending)).ofGarbage (List.forall_mem_nil _)
    simpa only [List.append_nil, List.flatMap_nil, ofLexemes] using h
  | ⟨.unknown, text⟩ :: ls, start, pending, hls => by
    have h := cut_ofLexemes ls start (pending ++ text) (List.forall_mem_cons.1 hls).2
    rwa [List.append_assoc] at h
  | ⟨.trivia, text⟩ :: ls, start, pending, hls => by
    obtain ⟨hl, hls⟩ := List.forall_mem_cons.1 hls
    have h := cut_ofLexemes ls (start + byteLength pending + byteLength text) [] hls
    refine (Cut.trivia (hl.isTrivia rfl) h).ofGarbage fun u hu _ => ?_
    have := h.le_start u hu
    have hpos : 0 < byteLength text := byteLength_pos hl.text_ne_nil
    omega
  | ⟨.token kind, text⟩ :: ls, start, pending, hls => by
    obtain ⟨hl, hls⟩ := List.forall_mem_cons.1 hls
    have hkind : kind ≠ .garbage := fun he => hl.not_garbage (congrArg _ he)
    have h := cut_ofLexemes ls (start + byteLength pending + byteLength text) [] hls
    refine (Cut.token kind hl.text_ne_nil (fun he => absurd he hkind) h).ofGarbage ?_
    refine List.forall_mem_cons.2 ⟨fun he => absurd he hkind, fun u hu _ => ?_⟩
    have := h.le_start u hu
    have hpos : 0 < byteLength text := byteLength_pos hl.text_ne_nil
    omega

theorem cut_lex (source : String) : Cut 0 source.toList (lex source) := by
  have h := cut_ofLexemes (Lexeme.split source.toList) 0 [] fun l => Lexeme.proper_of_mem_split
  rwa [List.nil_append, Lexeme.text_split] at h

/-! ## Tokens on their own -/

/-- The text of a token that is no garbage is that token. -/
theorem lex_lexeme {source : String} {t : Token} (ht : t ∈ lex source) (hkind : t.kind ≠ .garbage) :
    lex t.lexeme = [⟨t.kind, 0, t.text⟩] := by
  obtain ⟨c, cs, n, hfirst, htext⟩ := exists_first_of_mem_splitAfter (mem_of_mem_ofLexemes hkind ht)
  have htake := Lexeme.first_take hfirst
  dsimp only at htext htake
  rw [lex, lexeme, String.toList_ofList, htext]
  simp [Lexeme.split, Lexeme.splitAfter, htake, ofLexemes, ofGarbage,
    Lexeme.splitAfter_eq_split_drop n]

/-- Tokens stand in the text where they say, none of them empty, one after the other, and no two
tokens of garbage touch. What no token covers are blanks and comments. The text of a token that is
no garbage is cut into just that token. -/
theorem lex_lossless (source : String) :
    (∀ t ∈ lex source, t.start < t.stop ∧ t.stop ≤ byteLength source.toList ∧
      StandsAt source.toList t.start t.text) ∧
    (lex source).Pairwise (fun t u => t.start < u.start ∧ t.stop ≤ u.start ∧
      (t.kind = .garbage → u.kind = .garbage → t.stop < u.start)) ∧
    (∀ i < byteLength source.toList, (∃ t ∈ lex source, t.start ≤ i ∧ i < t.stop) ∨
      ∃ place piece, StandsAt source.toList place piece ∧ Lexeme.IsTrivia piece ∧
        place ≤ i ∧ i < place + byteLength piece ∧
        ∀ t ∈ lex source, t.stop ≤ place ∨ place + byteLength piece ≤ t.start) ∧
    ∀ t ∈ lex source, t.kind ≠ .garbage → lex t.lexeme = [⟨t.kind, 0, t.text⟩] := by
  have hcut := cut_lex source
  have hspan : ∀ t ∈ lex source, t.start < t.stop := fun t ht =>
    Nat.lt_add_of_pos_right (byteLength_pos (hcut.text_ne_nil t ht))
  refine ⟨fun t ht => ?_, ?_, fun i hi => ?_, fun t => lex_lexeme⟩
  · obtain ⟨place, hplace, hstart⟩ := hcut.standsAt t ht
    rw [Nat.zero_add] at hstart
    subst hstart
    exact ⟨hspan t ht, hplace.stop_le, hplace⟩
  · refine hcut.pairwise.imp_of_mem fun {t u} ht _ hapart => ⟨?_, hapart⟩
    exact (hspan t ht).trans_le hapart.1
  · have hcovered := hcut.covered i hi
    simp only [InTrivia, Nat.zero_add] at hcovered
    exact hcovered

/-- The comment ends the garbage, and is no token. -/
example : lex "a é?// b" = [⟨.ident, 0, ['a']⟩, ⟨.garbage, 2, ['é', '?']⟩] := by
  decide +kernel

end Token

end FlowTypes
