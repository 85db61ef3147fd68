import FlowTypes.Proofs.DecimalText
import FlowTypes.Proofs.NumberMembership
import FlowTypes.Token.Lexer

/-!
# The text of a set of numbers

Two well-formed sets of numbers with one text are one set (`NumberSet.identity_of_text`). The kind
of a set shows in the text : ranges have two points next to each other (`dots_iff`), ranges of
integers a parenthesis (`paren_iff`), and a literal is a number that can be read. The bounds of a
range are told apart at the two points, which no bound has (`append_dots_inj`).

No text of a set of numbers is a name or one of the words for other types (`text_ne_word`), and
none has a character that ends a type (`IsSetChar`).
-/

namespace FlowTypes

open Binary64

/-! ## Two points -/

/-- Every point stands before a digit. -/
def PointsBeforeDigits (cs : List Char) : Prop :=
  ∀ before after, cs = before ++ '.' :: after → ∃ d ds, after = d :: ds ∧ d.isDigit = true

theorem pointsBeforeDigits_text (v : Binary64) : PointsBeforeDigits v.text.toList :=
  fun _ _ h => isDigit_after_point h

/-- Where every point stands before a digit, no two points stand next to each other. -/
theorem PointsBeforeDigits.ne_dots {cs before after : List Char} (h : PointsBeforeDigits cs) :
    cs ≠ before ++ '.' :: '.' :: after := by
  intro he
  obtain ⟨d, ds, hd, hdigit⟩ := h _ _ he
  cases hd
  cases hdigit

theorem eq_nil_of_dots {xs rest ys ws : List Char} (h : PointsBeforeDigits (xs ++ rest))
    (he : '.' :: '.' :: ys = rest ++ '.' :: '.' :: ws) : rest = [] := by
  cases rest with
  | nil => rfl
  | cons c rest =>
    simp only [List.cons_append, List.cons.injEq] at he
    obtain ⟨rfl, he⟩ := he
    obtain ⟨d, ds, rfl, hdigit⟩ := h xs rest rfl
    simp only [List.cons_append, List.cons.injEq] at he
    rw [← he.1] at hdigit
    cases hdigit

/-- The first two points next to each other end the lower bound. -/
theorem append_dots_inj {xs ys zs ws : List Char} (hx : PointsBeforeDigits xs)
    (hz : PointsBeforeDigits zs) (h : xs ++ '.' :: '.' :: ys = zs ++ '.' :: '.' :: ws) :
    xs = zs ∧ ys = ws := by
  rcases List.append_eq_append_iff.1 h with ⟨rest, rfl, he⟩ | ⟨rest, rfl, he⟩
  · obtain rfl := eq_nil_of_dots hz he
    simpa using he
  · obtain rfl := eq_nil_of_dots hx he
    simpa [eq_comm] using he

namespace NumberSet

theorem toList_interval (lo hi : Binary64) :
    (interval lo hi).text.toList = lo.text.toList ++ '.' :: '.' :: hi.text.toList := by
  simp [text]

theorem toList_integers (lo hi : Binary64) :
    (integers lo hi).text.toList =
      'i' :: 'n' :: 't' :: '(' ::
        (lo.text.toList ++ '.' :: '.' :: (hi.text.toList ++ [')'])) := by
  simp [text]

/-! ## Characters -/

/-- The characters in texts of sets of numbers. -/
def isSetChar (c : Char) : Bool := isNumeralChar c || c = '(' || c = ')'

theorem isSetChar_of_mem_text {n : NumberSet} {c : Char} (hc : c ∈ n.text.toList) :
    isSetChar c = true := by
  have hv : ∀ {v : Binary64}, c ∈ v.text.toList → isSetChar c = true := by
    intro v h
    simp only [isSetChar, isNumeralChar_of_mem_text h, Bool.true_or]
  cases n with
  | all =>
    have hall : all.text.toList.all isSetChar = true := by decide
    exact List.all_eq_true.1 hall c hc
  | literal v => exact hv hc
  | interval lo hi =>
    rw [toList_interval] at hc
    simp only [List.mem_append, List.mem_cons] at hc
    rcases hc with h | rfl | rfl | h
    exacts [hv h, rfl, rfl, hv h]
  | integers lo hi =>
    rw [toList_integers] at hc
    simp only [List.mem_cons, List.mem_append, List.not_mem_nil, or_false] at hc
    rcases hc with rfl | rfl | rfl | rfl | h | rfl | rfl | h | rfl
    exacts [rfl, rfl, rfl, rfl, hv h, rfl, rfl, hv h, rfl]

theorem text_ne_nil (n : NumberSet) : n.text.toList ≠ [] := by
  cases n with
  | all => decide
  | literal v =>
    intro h
    have hread := Binary64.read?_text v
    have hempty : v.text = "" := String.toList_eq_nil_iff.1 h
    have hnone : Binary64.read? "" = none := by decide
    rw [hempty, hnone] at hread
    cases hread
  | interval lo hi => simp [toList_interval]
  | integers lo hi => simp [toList_integers]

/-! ## Kinds of sets -/

theorem text_literal (v : Binary64) : (literal v).text = v.text := rfl

theorem read?_number : Binary64.read? all.text = none := by
  decide +kernel

/-- Ranges have two points next to each other, other sets have not. -/
theorem dots_iff (n : NumberSet) :
    (∃ before after, n.text.toList = before ++ '.' :: '.' :: after) ↔ n.bounds?.isSome = true := by
  cases n with
  | all =>
    simp only [bounds?, Option.isSome_none, Bool.false_eq_true, iff_false, not_exists]
    intro before after h
    have : '.' ∈ all.text.toList := by simp [h]
    exact absurd this (by decide)
  | literal v =>
    simp only [bounds?, Option.isSome_none, Bool.false_eq_true, iff_false, not_exists]
    exact fun _ _ => (pointsBeforeDigits_text v).ne_dots
  | interval lo hi =>
    simp only [bounds?, Option.isSome_some, iff_true]
    exact ⟨_, _, toList_interval lo hi⟩
  | integers lo hi =>
    simp only [bounds?, Option.isSome_some, iff_true]
    exact ⟨'i' :: 'n' :: 't' :: '(' :: lo.text.toList, hi.text.toList ++ [')'], by
      rw [toList_integers]; rfl⟩

/-- Ranges of integers have a parenthesis, other sets have not. -/
theorem paren_iff (n : NumberSet) : '(' ∈ n.text.toList ↔ n.kindRank = 1 := by
  have hv : ∀ v : Binary64, '(' ∉ v.text.toList := fun v h =>
    absurd (isNumeralChar_of_mem_text h) (by decide)
  cases n with
  | all => decide
  | literal v => simpa [kindRank, text] using hv v
  | interval lo hi =>
    rw [toList_interval]
    simp [kindRank, hv]
  | integers lo hi =>
    rw [toList_integers]
    simp [kindRank]

/-- Sets of different kinds have different texts. -/
theorem kindRank_of_text {a b : NumberSet} (h : a.text = b.text) : a.kindRank = b.kindRank := by
  have hdots : a.bounds?.isSome = true ↔ b.bounds?.isSome = true := by
    rw [← dots_iff a, h, dots_iff b]
  have hparen : a.kindRank = 1 ↔ b.kindRank = 1 := by
    rw [← paren_iff a, h, paren_iff b]
  have hread : (Binary64.read? a.text).isSome = (Binary64.read? b.text).isSome := by rw [h]
  cases a <;> cases b <;> first
    | rfl
    | (simp [bounds?] at hdots; done)
    | (simp [kindRank] at hparen; done)
    | (simp [read?_number, text_literal, read?_text] at hread)

/-- Two well-formed sets with one text are one set. -/
theorem identity_of_text {a b : NumberSet} (ha : a.wellFormed = true) (hb : b.wellFormed = true)
    (h : a.text = b.text) : a.identity = b.identity := by
  have hkind := kindRank_of_text h
  -- The bounds of ranges have no signed zeros, so their texts tell them.
  have hbounds : ∀ {lo hi lo' hi' : Binary64}, properBounds lo hi = true →
      properBounds lo' hi' = true → lo.text = lo'.text → hi.text = hi'.text →
        lo = lo' ∧ hi = hi' := by
    intro lo hi lo' hi' h1 h2 hlo hhi
    obtain ⟨-, h3, h4⟩ := properBounds_iff.1 h1
    obtain ⟨-, h5, h6⟩ := properBounds_iff.1 h2
    rw [← h3, ← h4, ← h5, ← h6]
    exact ⟨unsignedZero_of_text hlo, unsignedZero_of_text hhi⟩
  have hlist := congrArg String.toList h
  cases a with
  | all => cases b <;> first | rfl | cases hkind
  | literal v =>
    cases b with
    | literal w =>
      simp only [identity]
      rw [unsignedZero_of_text (v := v) (w := w) h]
    | _ => cases hkind
  | interval lo hi =>
    cases b with
    | interval lo' hi' =>
      rw [toList_interval, toList_interval] at hlist
      obtain ⟨hlo, hhi⟩ :=
        append_dots_inj (pointsBeforeDigits_text lo) (pointsBeforeDigits_text lo') hlist
      obtain ⟨rfl, rfl⟩ := hbounds ha hb (String.toList_inj.1 hlo) (String.toList_inj.1 hhi)
      rfl
    | _ => cases hkind
  | integers lo hi =>
    cases b with
    | integers lo' hi' =>
      rw [toList_integers, toList_integers] at hlist
      simp only [List.cons.injEq, true_and] at hlist
      obtain ⟨hlo, hhi⟩ :=
        append_dots_inj (pointsBeforeDigits_text lo) (pointsBeforeDigits_text lo') hlist
      simp only [wellFormed, Bool.and_eq_true] at ha hb
      obtain ⟨rfl, rfl⟩ := hbounds ha.2 hb.2 (String.toList_inj.1 hlo)
        (String.toList_inj.1 (List.append_cancel_right hhi))
      rfl
    | _ => cases hkind

/-! ## Sets of numbers and words -/

/-- A word, all of name characters, is no text of a set of numbers, but for the three words that
are. -/
theorem text_ne_word {c : Char} {cs : List Char} (hc : c.isDigit = false)
    (hword : ∀ x ∈ c :: cs, Lexeme.isNameChar x = true)
    (hkey : c :: cs ∉ [['n', 'u', 'm', 'b', 'e', 'r'], ['N', 'a', 'N'], ['i', 'n', 'f']])
    (n : NumberSet) : n.text.toList ≠ c :: cs := by
  intro h
  have hmem : ∀ x ∈ n.text.toList, Lexeme.isNameChar x = true := by rwa [h]
  cases n with
  | all => exact hkey (h ▸ by decide)
  | literal v =>
    rcases v.text_cases with hv | ⟨d, hd | hd⟩
    · rw [text_literal] at h hmem
      simp only [List.mem_cons, List.not_mem_nil, or_false] at hv
      rcases hv with hv | hv | hv | hv <;> rw [hv] at h hmem
      · exact hkey (h ▸ by decide)
      · exact absurd (hmem '-' (by decide)) (by decide)
      · exact hkey (h ▸ by decide)
      · cases h
        cases hc
    · have : '-' ∈ (literal v).text.toList := by
        rw [text, hd]
        exact List.mem_cons_self
      exact absurd (hmem _ this) (by decide)
    · obtain ⟨x, xs, hx, hw⟩ := d.write_eq_cons
      rw [text, hd, hw] at h
      rw [(List.cons.inj h).1, hc] at hx
      cases hx
  | interval lo hi =>
    have : '.' ∈ (interval lo hi).text.toList := by simp [toList_interval]
    exact absurd (hmem _ this) (by decide)
  | integers lo hi =>
    have : '(' ∈ (integers lo hi).text.toList := by simp [toList_integers]
    exact absurd (hmem _ this) (by decide)

end NumberSet

end FlowTypes
