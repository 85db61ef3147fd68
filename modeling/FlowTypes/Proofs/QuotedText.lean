import FlowTypes.Text.Quoted
import Mathlib.Data.List.Basic

/-!
# Quoted texts are told apart

The escapes of characters form a prefix code (`escape_append_inj`), and none of them starts with
the closing quote, so a quoted text ends where it seems to : `write_append_inj`. The numbers of
characters that are not visible are told apart by their hexadecimal digits (`Hex.digits_injective`).

What is written between quotes is more than what may be read there : the null character and the
characters that are written by their number have escapes that no source text may use. So exactly
the texts without these are read back (`unescape_flatMap_escape_iff`).
-/

namespace FlowTypes

/-! ## Where a run of characters stops -/

section Stop

variable {p : Char → Bool} {xs ys zs ws : List Char}

theorem takeWhile_append_of_stop (hxs : ∀ x ∈ xs, p x = true) (hzs : ∀ z ∈ zs.head?, p z = false) :
    (xs ++ zs).takeWhile p = xs := by
  rw [List.takeWhile_append_of_pos hxs]
  cases zs with
  | nil => simp
  | cons z zs =>
    have hz : p z = false := hzs z rfl
    rw [List.takeWhile_cons_of_neg (by simp [hz]), List.append_nil]

/-- Two runs of characters of one class, each followed by none of that class, are told apart. -/
theorem append_inj_of_stop (hxs : ∀ x ∈ xs, p x = true) (hys : ∀ y ∈ ys, p y = true)
    (hzs : ∀ z ∈ zs.head?, p z = false) (hws : ∀ w ∈ ws.head?, p w = false)
    (h : xs ++ zs = ys ++ ws) : xs = ys ∧ zs = ws := by
  have hrun := congrArg (List.takeWhile p) h
  rw [takeWhile_append_of_stop hxs hzs, takeWhile_append_of_stop hys hws] at hrun
  subst hrun
  exact ⟨rfl, List.append_cancel_left h⟩

end Stop

/-! ## Hexadecimal digits -/

namespace Hex

theorem digitChar_injective {m n : ℕ} (hm : m < 16) (hn : n < 16)
    (h : m.digitChar = n.digitChar) : m = n := by
  have hall : ∀ a < 16, ∀ b < 16, Nat.digitChar a = Nat.digitChar b → a = b := by decide
  exact hall m hm n hn h

theorem digits_eq (n : ℕ) : digits n =
    if n < 16 then [n.digitChar] else digits (n / 16) ++ [(n % 16).digitChar] :=
  Nat.toDigits_eq_if (by decide)

theorem digits_ne_nil (n : ℕ) : digits n ≠ [] :=
  Nat.toDigits_ne_nil

/-- Numbers with the same digits are the same. -/
theorem digits_injective : ∀ {m n : ℕ}, digits m = digits n → m = n := by
  intro m
  induction m using Nat.strongRecOn with
  | ind m ih =>
    intro n h
    rw [digits_eq m, digits_eq n] at h
    split at h <;> split at h
    · next hm hn => exact digitChar_injective hm hn (List.cons.inj h).1
    · next hm hn =>
      have hlen := congrArg List.length h
      have := List.length_pos_iff.2 (digits_ne_nil (n / 16))
      simp only [List.length_append, List.length_singleton] at hlen
      omega
    · next hm hn =>
      have hlen := congrArg List.length h
      have := List.length_pos_iff.2 (digits_ne_nil (m / 16))
      simp only [List.length_append, List.length_singleton] at hlen
      omega
    · next hm hn =>
      obtain ⟨hdiv, hmod⟩ := List.append_inj' h rfl
      have h1 := ih (m / 16) (by omega) hdiv
      have h2 := digitChar_injective (Nat.mod_lt _ (by decide)) (Nat.mod_lt _ (by decide))
        (List.cons.inj hmod).1
      omega

theorem brace_notMem_digits (n : ℕ) : '}' ∉ digits n := by
  induction n using Nat.strongRecOn with
  | ind n ih =>
    have hall : ∀ a < 16, Nat.digitChar a ≠ '}' := by decide
    rw [digits_eq]
    split
    · next h =>
      rw [List.mem_singleton]
      exact (hall n h).symm
    · next h =>
      simp only [List.mem_append, List.mem_singleton, not_or]
      exact ⟨ih (n / 16) (by omega), (hall _ (Nat.mod_lt _ (by decide))).symm⟩

end Hex

/-! ## Escapes -/

namespace Quoted

/-- The characters with short escapes, and the letters that these are written with. -/
def shortEscapes : List (Char × Char) :=
  [('"', '"'), ('\\', '\\'), ('\n', 'n'), ('\r', 'r'), ('\t', 't'), ('\x00', '0')]

/-- A character is escaped shortly, stands for itself, or is written by its number. -/
theorem escape_cases (c : Char) :
    (∃ k, (c, k) ∈ shortEscapes ∧ escape c = ['\\', k]) ∨
      (c ≠ '"' ∧ c ≠ '\\' ∧ escape c = [c]) ∨
        escape c = '\\' :: 'u' :: '{' :: Hex.digits c.toNat ++ ['}'] := by
  unfold escape
  split
  · next h => subst h; exact Or.inl ⟨'"', by decide, rfl⟩
  · next hquote =>
    split
    · next h => subst h; exact Or.inl ⟨'\\', by decide, rfl⟩
    · next hback =>
      split
      · next h => subst h; exact Or.inl ⟨'n', by decide, rfl⟩
      · split
        · next h => subst h; exact Or.inl ⟨'r', by decide, rfl⟩
        · split
          · next h => subst h; exact Or.inl ⟨'t', by decide, rfl⟩
          · split
            · next h => subst h; exact Or.inl ⟨'0', by decide, rfl⟩
            · split
              · exact Or.inr (Or.inl ⟨hquote, hback, rfl⟩)
              · exact Or.inr (Or.inr rfl)

/-- No escape starts with the closing quote. -/
theorem quote_cons_ne_escape_append (c : Char) (xs ys : List Char) :
    '"' :: xs ≠ escape c ++ ys := by
  intro h
  rcases escape_cases c with ⟨k, -, he⟩ | ⟨hquote, -, he⟩ | he <;> rw [he] at h
  · exact absurd (List.cons.inj h).1 (by decide)
  · exact hquote (List.cons.inj h).1.symm
  · exact absurd (List.cons.inj h).1 (by decide)

/-- The escapes of characters form a prefix code. -/
theorem escape_append_inj {c d : Char} {xs ys : List Char} (h : escape c ++ xs = escape d ++ ys) :
    c = d ∧ xs = ys := by
  have hkey : ∀ p ∈ shortEscapes, ∀ q ∈ shortEscapes, p.2 = q.2 → p.1 = q.1 := by decide
  have hletter : ∀ p ∈ shortEscapes, p.2 ≠ 'u' := by decide
  rcases escape_cases c with ⟨k, hk, hc⟩ | ⟨-, hback, hc⟩ | hc <;>
    rcases escape_cases d with ⟨l, hl, hd⟩ | ⟨-, hback', hd⟩ | hd <;>
      rw [hc, hd] at h <;>
      simp only [List.cons_append, List.nil_append, List.append_assoc, List.cons.injEq,
        true_and] at h
  · exact ⟨hkey _ hk _ hl h.1, h.2⟩
  · exact absurd h.1.symm hback'
  · exact absurd h.1 (hletter _ hk)
  · exact absurd h.1 hback
  · exact h
  · exact absurd h.1 hback
  · exact absurd h.1.symm (hletter _ hl)
  · exact absurd h.1.symm hback'
  · have hbrace : ∀ n, ∀ x ∈ Hex.digits n, decide (x ≠ '}') = true := fun n x hx =>
      decide_eq_true fun he => Hex.brace_notMem_digits n (he ▸ hx)
    obtain ⟨hdigits, hrest⟩ :=
      append_inj_of_stop (hbrace c.toNat) (hbrace d.toNat) (by simp) (by simp) h
    exact ⟨Char.toNat_inj.1 (Hex.digits_injective hdigits), (List.cons.inj hrest).2⟩

theorem flatMap_escape_append_inj : ∀ {cs ds xs ys : List Char},
    cs.flatMap escape ++ '"' :: xs = ds.flatMap escape ++ '"' :: ys → cs = ds ∧ xs = ys
  | [], [], _, _, h => ⟨rfl, (List.cons.inj h).2⟩
  | [], d :: ds, _, _, h => by
    rw [List.flatMap_cons, List.append_assoc] at h
    exact absurd h (quote_cons_ne_escape_append d _ _)
  | c :: cs, [], _, _, h => by
    rw [List.flatMap_cons, List.append_assoc] at h
    exact absurd h.symm (quote_cons_ne_escape_append c _ _)
  | c :: cs, d :: ds, _, _, h => by
    rw [List.flatMap_cons, List.flatMap_cons, List.append_assoc, List.append_assoc] at h
    obtain ⟨rfl, htail⟩ := escape_append_inj h
    obtain ⟨rfl, hrest⟩ := flatMap_escape_append_inj htail
    exact ⟨rfl, hrest⟩

/-- A quoted text ends where it seems to. -/
theorem write_append_inj {s t : String} {xs ys : List Char}
    (h : (write s).toList ++ xs = (write t).toList ++ ys) : s = t ∧ xs = ys := by
  simp only [write, String.toList_ofList, List.cons_append, List.append_assoc, List.nil_append,
    List.cons.injEq, true_and] at h
  obtain ⟨hchars, hrest⟩ := flatMap_escape_append_inj h
  exact ⟨String.toList_inj.1 hchars, hrest⟩

/-! ## Reading back -/

/-- Is the character one that may stand in a source text as `escape` writes it? The escapes of all
others are unknown there. -/
def isReadable (c : Char) : Bool := isVisible c || c = '\n' || c = '\r' || c = '\t'

/-- Where a text stands does not matter to what it denotes. -/
theorem unescape_of_ok {cs : List Char} {offset : ℕ} (offset' : ℕ) {ds : List Char}
    (h : unescape offset cs = .ok ds) : unescape offset' cs = .ok ds := by
  fun_induction unescape offset cs generalizing offset' ds with
  | case1 => exact h
  | case2 offset c rest d hd ih =>
    cases hrest : unescape (offset + 1 + c.utf8Size) rest with
    | error e => simp [hrest, Except.map] at h
    | ok ds' => simpa [unescape, hd, ih _ hrest, hrest, Except.map] using h
  | case3 | case4 => cases h
  | case5 offset c rest hpair hc ih =>
    cases hrest : unescape (offset + c.utf8Size) rest with
    | error e => simp [hrest, Except.map] at h
    | ok ds' => simpa [unescape, hc, ih _ hrest, hrest, Except.map] using h

/-- A readable character has a short escape that may be used in source texts, or stands for
itself. -/
theorem escape_of_isReadable {c : Char} (hc : isReadable c = true) :
    (∃ k, k ≠ '\n' ∧ escaped? k = some c ∧ escape c = ['\\', k]) ∨
      (c ≠ '"' ∧ c ≠ '\\' ∧ escape c = [c]) := by
  have hshort : ∀ p ∈ shortEscapes, isReadable p.1 = true →
      p.2 ≠ '\n' ∧ escaped? p.2 = some p.1 := by decide
  rcases escape_cases c with ⟨k, hk, he⟩ | hself | he
  · obtain ⟨hline, hback⟩ := hshort _ hk hc
    exact Or.inl ⟨k, hline, hback, he⟩
  · exact Or.inr hself
  · -- An escape by number is longer than those of readable characters.
    have hlength : (escape c).length ≤ 2 := by
      simp only [isReadable, Bool.or_eq_true, decide_eq_true_eq] at hc
      rcases hc with ((hvisible | rfl) | rfl) | rfl
      · unfold escape
        split_ifs <;> simp
      all_goals decide
    rw [he] at hlength
    simp at hlength

/-- A readable character is read back from its escape, and then what follows. -/
theorem unescape_escape_append {c : Char} (hc : isReadable c = true) (offset : ℕ)
    (cs : List Char) :
    ∃ offset', unescape offset (escape c ++ cs) = (unescape offset' cs).map (c :: ·) := by
  rcases escape_of_isReadable hc with ⟨k, -, hk, he⟩ | ⟨-, hback, he⟩
  · exact ⟨offset + 1 + k.utf8Size, by simp [he, unescape, hk]⟩
  · exact ⟨offset + c.utf8Size, by simp [he, unescape, hback]⟩

/-- A character that is not readable has an escape that cannot be read. -/
theorem unescape_escape_of_not_readable {c : Char} (hc : isReadable c = false) (offset : ℕ)
    (cs ds : List Char) : unescape offset (escape c ++ cs) ≠ .ok ds := by
  simp only [isReadable, Bool.or_eq_false_iff, decide_eq_false_iff_not] at hc
  obtain ⟨⟨⟨hvisible, hn⟩, hr⟩, ht⟩ := hc
  have hquote : c ≠ '"' := by
    rintro rfl
    exact absurd hvisible (by decide)
  have hback : c ≠ '\\' := by
    rintro rfl
    exact absurd hvisible (by decide)
  unfold escape
  simp only [hquote, hback, hn, hr, ht, hvisible, if_false, Bool.false_eq_true]
  split <;> simp [unescape, escaped?]

/-- Exactly the texts of readable characters are read back from what is written between quotes. -/
theorem unescape_flatMap_escape_iff (offset : ℕ) : ∀ cs : List Char,
    unescape offset (cs.flatMap escape) = .ok cs ↔ ∀ c ∈ cs, isReadable c = true
  | [] => by simp [unescape]
  | c :: cs => by
    have ih := unescape_flatMap_escape_iff 0 cs
    rw [List.flatMap_cons, List.forall_mem_cons]
    cases hc : isReadable c with
    | false => simpa using unescape_escape_of_not_readable hc offset _ _
    | true =>
      obtain ⟨offset', h⟩ := unescape_escape_append hc offset (cs.flatMap escape)
      rw [h, ← ih]
      constructor
      · intro hmap
        cases hrest : unescape offset' (cs.flatMap escape) with
        | error e => simp [hrest, Except.map] at hmap
        | ok ds =>
          obtain rfl : ds = cs := by simpa [hrest, Except.map] using hmap
          exact ⟨rfl, unescape_of_ok 0 hrest⟩
      · rintro ⟨-, hrest⟩
        rw [unescape_of_ok offset' hrest]
        rfl

end Quoted

end FlowTypes
