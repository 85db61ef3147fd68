import FlowTypes.Proofs.ErrorPlaces
import FlowTypes.Proofs.LexicalCut

/-!
# Errors are in the text

Whatever is read as an expression or as definitions, the answer is a result or an error in a stretch
of the text (`Syntax.errors_located`). The places that parsers blame are told in terms of tokens
(`Blamed`). Tokens stand in the text one after the other and are not empty, and a text literal has
its quotes at its ends (`Token.quoted_of_mem_lex`), so these places are stretches of the text which
start and stop between characters (`Token.locates_of_blamed`).

How deep parsers call each other is what they count (`Syntax.levels_eq`).
-/

namespace FlowTypes

/-! ## Stretches of a text -/

/-- Is the piece what stands in the text from the one end of the stretch to the other? -/
structure Slices (source : String) (span : Span) (piece : List Char) : Prop where
  standsAt : Token.StandsAt source.toList span.start piece
  stop : span.stop = span.start + byteLength piece

/-- Is the stretch one of the text, which starts and stops between characters, and is empty at most
at the end of the text? -/
structure Locates (source : String) (span : Span) : Prop where
  ordered : span.start ≤ span.stop
  inside : span.stop ≤ source.utf8ByteSize
  start : String.Pos.Raw.IsValid source ⟨span.start⟩
  stop : String.Pos.Raw.IsValid source ⟨span.stop⟩
  nonempty : span.start = span.stop → span.start = source.utf8ByteSize

variable {source : String} {span : Span} {piece : List Char} {t : Token}

/-- What stands before some characters ends between characters. -/
theorem isValid_of_append {before after : List Char} (h : source.toList = before ++ after) :
    String.Pos.Raw.IsValid source ⟨byteLength before⟩ := by
  refine String.Pos.Raw.isValid_iff_exists_append.2
    ⟨String.ofList before, String.ofList after, ?_, ?_⟩
  · rw [← String.ofList_append, ← h, String.ofList_toList]
  · rw [String.Pos.Raw.ext_iff, String.byteIdx_rawEndPos, ← Token.byteLength_toList,
      String.toList_ofList]

theorem Slices.locates (h : Slices source span piece) (hpiece : piece ≠ []) :
    Locates source span := by
  have hpos := Token.byteLength_pos hpiece
  have hstop := h.stop
  have hinside := h.standsAt.stop_le
  rw [Token.byteLength_toList, ← hstop] at hinside
  obtain ⟨before, after, hsource, hstart⟩ := h.standsAt
  refine ⟨by omega, hinside, ?_, ?_, by omega⟩
  · rw [hstart]
    exact isValid_of_append (hsource.trans (List.append_assoc _ _ _))
  · rw [hstop, hstart, ← byteLength_append]
    exact isValid_of_append hsource

theorem locates_end (source : String) :
    Locates source ⟨source.utf8ByteSize, source.utf8ByteSize⟩ := by
  have hvalid : String.Pos.Raw.IsValid source ⟨source.utf8ByteSize⟩ := by
    rw [← Token.byteLength_toList]
    exact isValid_of_append (List.append_nil _).symm
  exact ⟨Nat.le_refl _, Nat.le_refl _, hvalid, hvalid, fun _ => rfl⟩

namespace Token

/-- What is part of a piece stands in the text as well. -/
theorem StandsAt.part {cs front rest : List Char} {place : ℕ}
    (h : StandsAt cs place (front ++ piece ++ rest)) :
    StandsAt cs (place + byteLength front) piece := by
  obtain ⟨before, after, rfl, rfl⟩ := h
  exact ⟨before ++ front, rest ++ after, by simp only [List.append_assoc],
    (byteLength_append _ _).symm⟩

theorem slices_of_mem_lex (ht : t ∈ lex source) : Slices source t.span t.text := by
  obtain ⟨place, hplace, hstart⟩ := (cut_lex source).standsAt t ht
  rw [Nat.zero_add] at hstart
  subst hstart
  exact ⟨hplace, rfl⟩

theorem locates_of_mem_lex (ht : t ∈ lex source) : Locates source t.span :=
  (slices_of_mem_lex ht).locates ((cut_lex source).text_ne_nil t ht)

/-! ## Text literals -/

/-- A text literal that closes ends in a quote. -/
theorem exists_take_literalLength {cs : List Char} {n : ℕ}
    (h : Lexeme.literalLength cs = (n, true)) : ∃ ds, cs.take n = ds ++ ['"'] := by
  fun_induction Lexeme.literalLength cs generalizing n with
  | case1 | case3 | case4 => cases h
  | case2 cs =>
    cases h
    exact ⟨[], rfl⟩
  | case5 c cs _ m closed hlength ih =>
    cases h
    obtain ⟨ds, hds⟩ := ih hlength
    exact ⟨'\\' :: c :: ds, by rw [List.take_succ_cons, List.take_succ_cons, hds]; rfl⟩
  | case6 c cs _ _ _ m closed hlength ih =>
    cases h
    obtain ⟨ds, hds⟩ := ih hlength
    exact ⟨c :: ds, by rw [List.take_succ_cons, hds]; rfl⟩

theorem quoted_of_mem_lex (ht : t ∈ lex source) (hkind : t.kind = .string) :
    ∃ cs, t.text = '"' :: (cs ++ ['"']) := by
  have hmem := mem_of_mem_ofLexemes (by rw [hkind]; nofun) ht
  obtain ⟨c, cs, n, hfirst, htext⟩ := exists_first_of_mem_splitAfter hmem
  have hcases : ∀ kind, Lexeme.Starts c cs (.token kind) n → kind = .string →
      ∃ ds, c :: cs.take n = '"' :: (ds ++ ['"']) := by
    intro kind hstarts hkind
    cases hstarts with
    | literal hc hcs =>
      obtain ⟨ds, hds⟩ := exists_take_literalLength hcs
      exact ⟨ds, by rw [hc, hds]⟩
    | word hc =>
      unfold Lexeme.wordKind at hkind
      split at hkind <;> cases hkind
    | mark hc =>
      unfold Lexeme.markKind? at hc
      split at hc <;> cases hc <;> cases hkind
    | _ => cases hkind
  rw [show t.text = c :: cs.take n from htext]
  exact hcases _ (Lexeme.starts_of_first hfirst) hkind

/-- What stands between the quotes of a text literal. -/
theorem slices_between_quotes (ht : t ∈ lex source) (hkind : t.kind = .string) :
    Slices source ⟨t.start + 1, t.stop - 1⟩ (t.text.drop 1).dropLast := by
  obtain ⟨cs, hcs⟩ := quoted_of_mem_lex ht hkind
  have hstands : StandsAt source.toList t.start (['"'] ++ cs ++ ['"']) := by
    have htoken := (slices_of_mem_lex ht).standsAt
    rwa [hcs] at htoken
  have hstop : t.stop = t.start + ('"'.utf8Size + (byteLength cs + '"'.utf8Size)) := by
    rw [stop, hcs, byteLength_cons, byteLength_append, byteLength_cons, byteLength_nil,
      Nat.add_zero]
  have hquote : '"'.utf8Size = 1 := rfl
  rw [hcs, List.drop_one, List.tail_cons, List.dropLast_concat]
  refine ⟨hstands.part, ?_⟩
  dsimp only
  omega

end Token

/-- An unknown escape is where it is said to be. -/
theorem Quoted.exists_of_unescape_error {cs : List Char} {offset i j : ℕ}
    (h : unescape offset cs = .error (i, j)) : ∃ before piece after, cs = before ++ piece ++ after ∧
      piece ≠ [] ∧ i = offset + byteLength before ∧ j = i + byteLength piece := by
  have hmap : ∀ {x : Except (ℕ × ℕ) (List Char)} {d : Char},
      x.map (d :: ·) = .error (i, j) → x = .error (i, j) := by
    intro x d hx
    cases x <;> cases hx
    rfl
  have hback : '\\'.utf8Size = 1 := rfl
  fun_induction unescape offset cs with
  | case1 => cases h
  | case2 offset c rest d hd ih =>
    obtain ⟨before, piece, after, rfl, hpiece, hi, hj⟩ := ih (hmap h)
    refine ⟨'\\' :: c :: before, piece, after, rfl, hpiece, ?_, hj⟩
    rw [byteLength_cons, byteLength_cons]
    omega
  | case3 offset c rest hc =>
    cases h
    refine ⟨[], ['\\', c], rest, rfl, List.cons_ne_nil _ _, rfl, ?_⟩
    rw [byteLength_cons, byteLength_cons, byteLength_nil]
    omega
  | case4 offset rest =>
    cases h
    exact ⟨[], ['\\'], rest, rfl, List.cons_ne_nil _ _, rfl, rfl⟩
  | case5 offset c rest _ _ ih =>
    obtain ⟨before, piece, after, rfl, hpiece, hi, hj⟩ := ih (hmap h)
    refine ⟨c :: before, piece, after, rfl, hpiece, ?_, hj⟩
    rw [byteLength_cons]
    omega

/-! ## Errors are in the text -/

/-- The places of errors are stretches of the text. -/
theorem Token.locates_of_blamed (h : Blamed source.utf8ByteSize (lex source) span) :
    Locates source span := by
  cases h with
  | atEnd => exact locates_end source
  | token ht => exact locates_of_mem_lex ht
  | @between t u h =>
    have ht := locates_of_mem_lex (h.subset List.mem_cons_self)
    have hu := locates_of_mem_lex (h.subset (List.mem_cons_of_mem t List.mem_cons_self))
    have horder : t.stop ≤ u.start :=
      (List.pairwise_iff_forall_sublist.1 (cut_lex source).pairwise h).1
    have hpos : t.start < t.stop := Nat.lt_add_of_pos_right
      (byteLength_pos ((cut_lex source).text_ne_nil t (h.subset List.mem_cons_self)))
    have hlt : t.start < u.stop := hpos.trans_le (horder.trans hu.ordered)
    exact ⟨hlt.le, hu.inside, ht.start, hu.stop, fun he => absurd he hlt.ne⟩
  | @escape t i j ht hkind h =>
    obtain ⟨before, piece, after, hcs, hpiece, rfl, rfl⟩ := Quoted.exists_of_unescape_error h
    have hstands := (slices_between_quotes ht hkind).standsAt
    rw [hcs] at hstands
    exact Slices.locates ⟨hstands.part, rfl⟩ hpiece

/-- A number ends where the token does that comes before those left. -/
theorem Syntax.stop_of_number {all ts : List Token} {n : ℕ} {v : Binary64 × ℕ}
    {left : Parser.Rest ts} (hts : ts <:+ all) (hv : number n ts = .ok (v, left)) :
    left.1.length < all.length ∧
      all[all.length - left.1.length - 1]?.map Token.stop = some v.2 := by
  obtain ⟨front, rfl⟩ := hts
  obtain ⟨us, hus, before, t, rfl, hstop⟩ := gives_number n ts v left hv
  have hall : front ++ ts = (front ++ before) ++ t :: left.1 := by
    rw [List.append_assoc]
    exact congrArg (front ++ ·) (hus.trans (by rw [List.append_assoc, List.singleton_append]))
  have hlength : (front ++ ts).length = (front ++ before).length + (left.1.length + 1) := by
    rw [hall, List.length_append, List.length_cons]
  have hplace : (front ++ ts).length - left.1.length - 1 = (front ++ before).length := by
    omega
  refine ⟨by omega, ?_⟩
  rw [hplace, hall, List.getElem?_append_right le_rfl, Nat.sub_self, List.getElem?_cons_zero]
  exact congrArg some hstop.symm

/-! ## Levels -/

/-- The parser as it counts levels up, if there is room for so many calls inside of each other. If
there is no room left it does something else. -/
def Syntax.levels (overflow : Parser Expr) : (room level : ℕ) → Braces → Parser Expr
  | 0, _, _ => overflow
  | room + 1, level, braces =>
    if maxDepth ≤ level then do Parser.failAt (← Parser.position) .tooDeep
    else operators (levels overflow room (level + 1)) braces

theorem Syntax.levels_eq (overflow : Parser Expr) : ∀ {room level : ℕ}, maxDepth < room + level →
    level ≤ maxDepth → levels overflow room level = expression (maxDepth - level)
  | 0, level, hroom, hlevel => by omega
  | room + 1, level, hroom, hlevel => by
    funext braces
    rw [levels]
    split_ifs with hdeep
    · rw [Nat.sub_eq_zero_of_le hdeep]
      rfl
    · obtain ⟨depth, hdepth⟩ : ∃ depth, maxDepth - level = depth + 1 :=
        Nat.exists_eq_succ_of_ne_zero (by omega)
      rw [levels_eq overflow (by omega) (by omega), hdepth,
        show maxDepth - (level + 1) = depth by omega]
      rfl

/-- Whatever the text, the answer is a result or an error in that text. Parsers call each other at
most as deep as they count, so more room makes no difference. What is cut out of the text is there :
each token, and the characters between the quotes of a text literal. And a number ends where the
token does that comes before those left. -/
theorem Syntax.errors_located (source : String) :
    ((∃ e, Expr.parse source = .ok e) ∨
      ∃ error, Expr.parse source = .error error ∧ Locates source error.span) ∧
    (∀ r : Registry, (r.parse source).2 = none ∨
      ∃ error, (r.parse source).2 = some error ∧ Locates source error.span) ∧
    (∀ overflow room, maxDepth < room → levels overflow room 0 = expression maxDepth) ∧
    (∀ t ∈ Token.lex source, Slices source t.span t.text ∧
      (t.kind = .string → Slices source ⟨t.start + 1, t.stop - 1⟩ (t.text.drop 1).dropLast)) ∧
    ∀ ts n v left, ts <:+ Token.lex source → number n ts = .ok (v, left) →
      left.1.length < (Token.lex source).length ∧
      (Token.lex source)[(Token.lex source).length - left.1.length - 1]?.map Token.stop =
        some v.2 := by
  refine ⟨?_, fun r => ?_, fun overflow room hroom => ?_, fun t ht => ?_,
    fun ts n v left hts hv => stop_of_number hts hv⟩
  · cases hparse : Expr.parse source with
    | ok e => exact .inl ⟨e, rfl⟩
    | error error =>
      refine .inr ⟨error, rfl, Token.locates_of_blamed ?_⟩
      unfold Expr.parse at hparse
      split at hparse <;> cases hparse
      next he => exact blames_completeExpression _ _ _ he
  · cases hparse : (r.parse source).2 with
    | none => exact .inl rfl
    | some error =>
      exact .inr ⟨error, rfl, Token.locates_of_blamed (Registry.blamed_of_addTokens hparse)⟩
  · exact levels_eq overflow (by omega) (Nat.zero_le _)
  · exact ⟨Token.slices_of_mem_lex ht, Token.slices_between_quotes ht⟩

/-- The escape stands after a quote and a letter of two bytes. -/
example : Expr.parse "\"é\\q\"" = .error ⟨.unknownEscape, ⟨3, 5⟩⟩ := by
  decide +kernel

end FlowTypes
