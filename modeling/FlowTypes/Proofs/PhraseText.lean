import FlowTypes.Proofs.GrammarComplete
import FlowTypes.Proofs.Spellings
import FlowTypes.Proofs.TypeText

/-!
# Texts that read as phrases

A text writes a phrase if it is cut into tokens that can be read as the phrase, whatever comes
after it, as long as that cannot be joined to its last token (`Phrase.Writes`). A text that writes
an expression is accepted (`Expr.parse_of_writes`).

There is one lemma for each way in which texts are put together : one after the other, between
parentheses or braces, with commas or operators between them. From these it follows for each rule
of the grammar that the text of what it makes is read by it. Numbers are read up to the sign of a
zero (`Grammar.writes_number`), and texts if every character of them is readable as it is quoted
(`Grammar.writes_textSet`).
-/

namespace FlowTypes

open Token (Breaks breaks_nil breaks_cons breaks_point spellings spellings_mark spellings_blank)

/-- Is the text cut into tokens that can be read as this, before everything that cannot be joined to
its last token? -/
def Phrase.Writes {α : Type} (phrase : Phrase α) (cs : List Char) (a : α) : Prop :=
  ∃ ws, phrase ws a ∧ ∀ rest, Breaks rest → spellings (cs ++ rest) = ws ++ spellings rest

/-- A text that is read as an expression is accepted, with it as the result. -/
theorem Expr.parse_of_writes {source : String} {e : Expr}
    (h : Phrase.Writes (Grammar.Expression Syntax.maxDepth .openFields) source.toList e) :
    Expr.parse source = .ok e := by
  obtain ⟨ws, hws, hcut⟩ := h
  have hall := hcut [] breaks_nil
  rw [List.append_nil, Token.spellings_nil, List.append_nil] at hall
  rwa [Expr.parse_eq_ok_iff, hall]

namespace Phrase

variable {α β : Type} {phrase : Phrase α} {cs : List Char} {a : α}

theorem Writes.mono {phrase' : Phrase β} {b : β} (h : phrase.Writes cs a)
    (hphrase : ∀ ws, phrase ws a → phrase' ws b) : phrase'.Writes cs b := by
  obtain ⟨ws, hws, hcut⟩ := h
  exact ⟨ws, hphrase ws hws, hcut⟩

/-- One text after another, if the second cannot be joined to the first. -/
theorem Writes.append {γ : Type} {following : Phrase β} {both : Phrase γ} {ds : List Char} {b : β}
    {c : γ} (h : phrase.Writes cs a) (hmore : following.Writes ds b)
    (hbreaks : ∀ rest, Breaks rest → Breaks (ds ++ rest))
    (hboth : ∀ ws vs, phrase ws a → following vs b → both (ws ++ vs) c) :
    both.Writes (cs ++ ds) c := by
  obtain ⟨ws, hws, hcut⟩ := h
  obtain ⟨vs, hvs, hcuts⟩ := hmore
  refine ⟨_, hboth ws vs hws hvs, fun rest hrest => ?_⟩
  rw [List.append_assoc, hcut _ (hbreaks rest hrest), hcuts rest hrest, List.append_assoc]

/-! ## Repetition -/

open Grammar (Enclosed Listed AfterEach Joined)

/-- A text between parentheses. -/
theorem Writes.parenthesized (h : phrase.Writes cs a) :
    (Enclosed .parenOpen .parenClose phrase).Writes ('(' :: (cs ++ [')'])) a := by
  obtain ⟨ws, hws, hcut⟩ := h
  refine ⟨_, .intro ['('] [')'] hws, fun rest _ => ?_⟩
  rw [List.cons_append, List.append_assoc, List.singleton_append,
    spellings_mark '(' .parenOpen (by decide), hcut _ (breaks_cons rfl (by decide) rest),
    spellings_mark ')' .parenClose (by decide), List.cons_append, List.append_assoc,
    List.singleton_append]

/-- A text between braces. -/
theorem Writes.braced {text : String} (h : phrase.Writes text.toList a) :
    (Enclosed .braceOpen .braceClose phrase).Writes (braced text).toList a := by
  obtain ⟨ws, hws, hcut⟩ := h
  refine ⟨_, .intro ['{'] ['}'] hws, fun rest _ => ?_⟩
  have htext : (FlowTypes.braced text).toList ++ rest =
      ' ' :: '{' :: ' ' :: (text.toList ++ ' ' :: '}' :: rest) := by simp [FlowTypes.braced]
  rw [htext, spellings_blank rfl, spellings_mark '{' .braceOpen (by decide),
    spellings_blank rfl, hcut _ (breaks_cons rfl (by decide) _), spellings_blank rfl,
    spellings_mark '}' .braceClose (by decide), List.cons_append, List.append_assoc,
    List.singleton_append]

theorem breaks_braced (text : String) (rest : List Char) :
    Breaks ((FlowTypes.braced text).toList ++ rest) := by
  rw [FlowTypes.braced, String.append_assoc, String.toList_append]
  exact breaks_cons rfl (by decide) _

/-- Texts with commas between them. -/
theorem writes_listed {ts : List String} {as : List α}
    (h : List.Forall₂ (fun t a => phrase.Writes t.toList a) ts as) :
    (Listed phrase).Writes (joinWith ", " ts).toList as := by
  induction h with
  | nil => exact ⟨[], .nil, fun _ _ => rfl⟩
  | @cons s a ts as h hmore ih =>
    cases hmore with
    | nil => exact h.mono fun _ => .last
    | @cons t b ts bs =>
      obtain ⟨ws, hws, hcut⟩ := h
      obtain ⟨vs, hvs, hcuts⟩ := ih
      refine ⟨_, .cons [','] hws hvs, fun rest hrest => ?_⟩
      have htext : (joinWith ", " (s :: t :: ts)).toList ++ rest =
          s.toList ++ ',' :: ' ' :: ((joinWith ", " (t :: ts)).toList ++ rest) := by simp [joinWith]
      rw [htext, hcut _ (breaks_cons rfl (by decide) _), spellings_mark ',' .comma (by decide),
        spellings_blank rfl, hcuts rest hrest, List.append_assoc, List.cons_append]

/-- Braces without anything between them. -/
theorem writes_empty : (Enclosed .braceOpen .braceClose (Listed phrase)).Writes
    [' ', '{', ' ', '}'] [] := by
  refine ⟨_, .intro ['{'] ['}'] .nil, fun rest _ => ?_⟩
  simp only [List.cons_append, List.nil_append]
  rw [spellings_blank rfl, spellings_mark '{' .braceOpen (by decide), spellings_blank rfl,
    spellings_mark '}' .braceClose (by decide)]

section Joined

variable {phrase : Phrase Expr} {separator : Token.Kind} {mark : Char}

/-- Some texts, each after a mark between blanks. -/
def marked (mark : Char) (ts : List String) : List Char :=
  ts.flatMap fun t => ' ' :: mark :: ' ' :: t.toList

theorem breaks_marked (mark : Char) (ts : List String) {rest : List Char} (hrest : Breaks rest) :
    Breaks (marked mark ts ++ rest) := by
  cases ts with
  | nil => exact hrest
  | cons => exact breaks_cons rfl (by decide) _

theorem writes_marked (hmark : (mark, separator) ∈ Token.marks) : ∀ {ts : List String}
    {es : List Expr}, List.Forall₂ (fun t e => phrase.Writes t.toList e) ts es →
      (AfterEach separator phrase).Writes (marked mark ts) es
  | _, _, .nil => ⟨[], .nil, fun _ _ => rfl⟩
  | s :: ts, _, .cons ⟨ws, hws, hcut⟩ hmore => by
    obtain ⟨vs, hvs, hcuts⟩ := writes_marked hmark hmore
    refine ⟨_, .cons [mark] hws hvs, fun rest hrest => ?_⟩
    have htext : marked mark (s :: ts) ++ rest =
        ' ' :: mark :: ' ' :: (s.toList ++ (marked mark ts ++ rest)) := by simp [marked]
    rw [htext, spellings_blank rfl, spellings_mark mark separator hmark, spellings_blank rfl,
      hcut _ (breaks_marked mark ts hrest), hcuts rest hrest, List.cons_append, List.append_assoc]

/-- Operands with a mark between blanks between them. -/
theorem writes_joined {join : List Expr → Expr} {bar : String}
    (hmark : (mark, separator) ∈ Token.marks) (hbar : bar.toList = [' ', mark, ' '])
    {ts : List String} {es : List Expr}
    (h : List.Forall₂ (fun t e => phrase.Writes t.toList e) ts es) (hes : 2 ≤ es.length) :
    (Joined join separator phrase).Writes (joinWith bar ts).toList (join es) := by
  cases h with
  | nil => simp at hes
  | @cons s e ts es h hmore =>
    have hne : es ≠ [] := by
      rintro rfl
      simp at hes
    have htext : (joinWith bar (s :: ts)).toList = s.toList ++ marked mark ts := by
      have := toList_joinWith bar s ts
      rw [List.flatMap_cons, List.append_assoc] at this
      simpa [hbar, marked] using this
    rw [htext]
    exact h.append (writes_marked hmark hmore) (fun _ => breaks_marked mark ts)
      fun _ _ hws hvs => .several hws hvs hne

end Joined

end Phrase

namespace Grammar

variable {α : Type} {phrase : Phrase α} {cs : List Char} {a : α}

section Operators

variable {inner : Syntax.Braces → Phrase Expr} {braces : Syntax.Braces} {ts : List String}
  {es : List Expr}

theorem writes_union
    (h : List.Forall₂ (fun t e => Phrase.Writes (Accesses inner braces) t.toList e) ts es)
    (hes : 2 ≤ es.length) :
    Phrase.Writes (Operators inner braces) (joinWith " | " ts).toList (.union es) :=
  Phrase.writes_joined (by decide : ('|', Token.Kind.pipe) ∈ Token.marks) rfl
    (h.imp fun _ _ ht => ht.mono fun _ hws => .one hws) hes

theorem writes_intersection
    (h : List.Forall₂ (fun t e => Phrase.Writes (Accesses inner braces) t.toList e) ts es)
    (hes : 2 ≤ es.length) :
    Phrase.Writes (Operators inner braces) (joinWith " & " ts).toList (.intersection es) :=
  (Phrase.writes_joined (by decide : ('&', Token.Kind.ampersand) ∈ Token.marks) rfl h hes).mono
    fun _ hws => .one hws

end Operators

/-! ## Words and names -/

theorem writes_word {c : Char} {cs : List Char} (hc : c.isAlpha = true)
    (hcs : cs.all Lexeme.isNameChar = true)
    (h : phrase [⟨Lexeme.wordKind (c :: cs), c :: cs⟩] a) : phrase.Writes (c :: cs) a :=
  ⟨_, h, fun _ hrest => Token.spellings_word hc hcs hrest⟩

theorem writes_name {name : String} (h : isIdentifier name = true) :
    Phrase.Writes Name name.toList name := by
  refine ⟨[⟨.ident, name.toList⟩], ?_, fun _ hrest => Token.spellings_name h hrest⟩
  simpa using Name.intro name.toList

/-- The text of some accesses, one after the other. -/
def dotted (names : List String) : List Char :=
  names.flatMap fun name => '.' :: name.toList

/-- A point before a name is not read as the point of a number, nor as two points. -/
theorem breaks_dotted {names : List String} (hnames : ∀ name ∈ names, isIdentifier name = true)
    {rest : List Char} (hrest : Breaks rest) : Breaks (dotted names ++ rest) := by
  cases names with
  | nil => exact hrest
  | cons name names =>
    obtain ⟨c, cs, he, -, hc⟩ := Token.isIdentifier_iff.1 (List.forall_mem_cons.1 hnames).1
    have htext : dotted (name :: names) ++ rest = '.' :: c :: (cs ++ (dotted names ++ rest)) := by
      simp [dotted, he]
    rw [htext]
    refine breaks_point ?_ _
    rcases hc with ⟨halpha, -⟩ | ⟨rfl, -⟩
    · exact isDigit_of_isAlpha halpha
    · rfl

theorem writes_dotted : ∀ {names : List String}, (∀ name ∈ names, isIdentifier name = true) →
    Phrase.Writes (AfterEach .dot Name) (dotted names) names
  | [], _ => ⟨[], .nil, fun _ _ => rfl⟩
  | name :: names, hnames => by
    obtain ⟨hname, hmore⟩ := List.forall_mem_cons.1 hnames
    obtain ⟨vs, hvs, hcuts⟩ := writes_dotted hmore
    obtain ⟨ws, hws, hcut⟩ := writes_name hname
    refine ⟨_, .cons ['.'] hws hvs, fun rest hrest => ?_⟩
    obtain ⟨c, cs, he, -, hc⟩ := Token.isIdentifier_iff.1 hname
    have hpoint : c ≠ '.' := by
      rintro rfl
      rcases hc with ⟨halpha, -⟩ | ⟨hunderscore, -⟩ <;> contradiction
    have htext : dotted (name :: names) ++ rest =
        '.' :: c :: (cs ++ (dotted names ++ rest)) := by simp [dotted, he]
    have hfirst := hcut _ (breaks_dotted hmore hrest)
    rw [he, List.cons_append] at hfirst
    rw [htext, Token.spellings_dot hpoint, hfirst, hcuts rest hrest, List.cons_append,
      List.append_assoc]

/-- What is accessed and the names of the fields. -/
theorem writes_accesses {inner : Syntax.Braces → Phrase Expr} {braces : Syntax.Braces} {e : Expr}
    (h : Phrase.Writes (Primary inner braces) cs e) {names : List String}
    (hnames : ∀ name ∈ names, isIdentifier name = true) :
    Phrase.Writes (Accesses inner braces) (cs ++ dotted names) (names.foldl .access e) :=
  h.append (writes_dotted hnames) (fun _ => breaks_dotted hnames) fun _ _ => .intro

/-! ## Numbers -/

/-- A sign and what is signed. -/
theorem writes_signed (negative : Bool)
    (h : ∀ {ws}, Sign ws negative → Phrase.Writes (fun vs a => phrase (ws ++ vs) a) cs a) :
    phrase.Writes ((if negative then ['-'] else []) ++ cs) a := by
  cases negative with
  | false => simpa using h .none
  | true =>
    obtain ⟨ws, hws, hcut⟩ := h (.minus ['-'])
    refine ⟨_, hws, fun rest hrest => ?_⟩
    rw [if_pos rfl, List.cons_append, List.nil_append, List.cons_append,
      spellings_mark '-' .minus (by decide), hcut rest hrest]
    rfl

/-- The text of a number is read as the number, a zero without its sign. -/
theorem writes_number (v : Binary64) : Phrase.Writes Number v.text.toList v.unsignedZero := by
  have hdecimal : ∀ (negative : Bool) {d read : Decimal} {w : Binary64},
      Decimal.read? d.write = some read → read.toBinary64 negative = w →
        Phrase.Writes Number ((if negative then ['-'] else []) ++ d.write) w := by
    rintro negative d read _ hread rfl
    exact writes_signed negative fun hsign =>
      ⟨_, .digits hsign hread, fun rest hrest => Token.spellings_decimal d hrest⟩
  cases v with
  | nan => exact writes_word rfl (by decide) (.nan _)
  | infinity s =>
    have htext : (Binary64.infinity s).text.toList =
        (if s then ['-'] else []) ++ ['i', 'n', 'f'] := by cases s <;> rfl
    rw [htext]
    exact writes_signed s fun hsign => writes_word rfl (by decide) (.infinity _ hsign)
  | finite s m hm =>
    rcases Nat.eq_zero_or_pos m with rfl | hpos
    · have hzero : (Binary64.finite s 0 hm).text.toList = (⟨0, 0⟩ : Decimal).write := by
        simp only [Binary64.text, if_true]
        decide +kernel
      have hunsigned : (Binary64.finite s 0 hm).unsignedZero = .zero := rfl
      rw [hzero, hunsigned]
      exact @hdecimal false ⟨0, 0⟩ ⟨0, 0⟩ _ (by decide +kernel) (by decide +kernel)
    · obtain ⟨digits, places, hread, hratio⟩ := Decimal.read?_write (Decimal.shortest m)
      rw [Binary64.text_finite s hm hpos.ne', String.toList_ofList]
      refine hdecimal s hread ?_
      rw [Decimal.toBinary64_of_ratio hpos (Decimal.toBinary64_shortest hm hpos) s hratio]
      simp only [Binary64.unsignedZero, hpos.ne', if_false]

/-- Two bounds with two points between them. -/
theorem writes_range {lo hi : Binary64} (h : NumberSet.properBounds lo hi = true) :
    Phrase.Writes Range (lo.text.toList ++ '.' :: '.' :: hi.text.toList) (lo, hi) := by
  obtain ⟨hlt, hlo, hhi⟩ := NumberSet.properBounds_iff.1 h
  obtain ⟨ws, hws, hcut⟩ := writes_number lo
  obtain ⟨vs, hvs, hcuts⟩ := writes_number hi
  rw [hlo] at hws
  rw [hhi] at hvs
  obtain ⟨hnan, hnan', hvalue⟩ := Binary64.lt_iff_value.1 hlt
  have hbounds : Bounds lo hi :=
    ⟨hnan, hnan', fun hgt => lt_asymm hvalue (Binary64.lt_iff_value.1 hgt).2.2⟩
  refine ⟨_, .intro ['.', '.'] hws hvs hbounds, fun rest hrest => ?_⟩
  rw [List.append_assoc, List.cons_append, List.cons_append, hcut _ (breaks_point rfl _),
    Token.spellings_dots, hcuts rest hrest, List.append_assoc, List.cons_append]

/-! ## Types of one shape -/

/-- The text of a set of numbers is read as the set, a zero without its sign. -/
theorem writes_numberSet {n : NumberSet} (hn : n.wellFormed = true) :
    Phrase.Writes Atom n.text.toList (.ofShape (.number n.identity)) := by
  cases n with
  | all => exact writes_word (c := 'n') (by decide) (by decide) (.word _ rfl)
  | literal v => exact (writes_number v).mono fun _ h => .literal h
  | interval lo hi =>
    have htype : Ty.interval lo hi = .ofShape (.number (.interval lo hi)) := by
      rw [Ty.interval, NumberSet.interval?_of_wellFormed hn]
      rfl
    rw [NumberSet.toList_interval]
    exact htype ▸ (writes_range hn).mono fun _ h => .interval h
  | integers lo hi =>
    have htype : Ty.integers lo hi = .ofShape (.number (.integers lo hi)) := by
      rw [Ty.integers, NumberSet.integers?_of_wellFormed hn]
      rfl
    have hbounds : NumberSet.properBounds lo hi = true := by
      simp only [NumberSet.wellFormed, Bool.and_eq_true] at hn
      exact hn.2
    obtain ⟨ws, hws, hcut⟩ := (writes_range hbounds).parenthesized
    have hatom := Atom.integers ['i', 'n', 't'] hws
    rw [htype] at hatom
    refine ⟨_, hatom, fun rest hrest => ?_⟩
    have htext : (NumberSet.integers lo hi).text.toList ++ rest = 'i' :: (['n', 't'] ++
        ('(' :: ((lo.text.toList ++ '.' :: '.' :: hi.text.toList) ++ [')']) ++ rest)) := by
      rw [NumberSet.toList_integers]
      simp
    have hword : ∀ {rest}, Breaks rest →
        spellings ('i' :: (['n', 't'] ++ rest)) = ⟨.int, ['i', 'n', 't']⟩ :: spellings rest :=
      fun h => Token.spellings_word (by decide) (by decide) h
    have hbreaks : Breaks ('(' :: ((lo.text.toList ++ '.' :: '.' :: hi.text.toList) ++ [')']) ++ rest) :=
      breaks_cons rfl (by decide) _
    rw [htext, hword hbreaks, hcut rest hrest]
    rfl

/-- The text of a set of texts of readable characters is read as the set. -/
theorem writes_textSet {t : TextSet}
    (ht : ∀ s, t = .literal s → ∀ c ∈ s.toList, Quoted.isReadable c = true) :
    Phrase.Writes Atom t.text.toList (.ofShape (.text t)) := by
  cases t with
  | all => exact writes_word (c := 's') (by decide) (by decide) (.word _ rfl)
  | literal s =>
    have hs := ht s rfl
    refine ⟨[⟨.string, (Quoted.write s).toList⟩], ?_, fun rest _ => Token.spellings_quoted hs rest⟩
    have hinner : ((Quoted.write s).toList.drop 1).dropLast = s.toList.flatMap Quoted.escape := by
      simp [Quoted.write]
    have hread := (Quoted.unescape_flatMap_escape_iff 0 s.toList).2 hs
    rw [← hinner] at hread
    have hatom := Atom.text hread
    rwa [String.ofList_toList] at hatom

end Grammar

/-- Is the shape no record, and can what it quotes be read? -/
def Shape.isAtom : Shape → Bool
  | .number _ | .text .all => true
  | .text (.literal s) => s.toList.all Quoted.isReadable
  | .record .. => false

/-- Is the type written without operators and names, and can what it quotes be read? -/
def Ty.isAtom : Ty → Bool
  | .any | .oneOf [] => true
  | .oneOf [s] => s.isAtom
  | .oneOf _ => false

theorem Grammar.writes_shape {s : Shape} (hs : s.wellFormed = true) (hatom : s.isAtom = true) :
    Phrase.Writes Atom s.describe.toList (.ofShape s.identity) := by
  cases s with
  | number n =>
    rw [Shape.describe, Shape.identity]
    exact writes_numberSet (by simpa only [Shape.wellFormed] using hs)
  | text t =>
    rw [Shape.describe, Shape.identity]
    refine writes_textSet fun s he => ?_
    subst he
    exact List.all_eq_true.1 hatom
  | record => cases hatom

/-- The text of a type of at most one shape is read as the type, a zero without its sign. -/
theorem Grammar.writes_atom {t : Ty} (ht : t.wellFormed = true) (hatom : t.isAtom = true) :
    Phrase.Writes Atom t.text.toList t.identity := by
  match t, hatom with
  | .any, _ =>
    rw [Ty.identity]
    exact writes_word (c := 'a') (by decide) (by decide) (.word _ rfl)
  | .oneOf [], _ =>
    rw [Ty.identity]
    exact writes_word (c := 'n') (by decide) (by decide) (.word _ rfl)
  | .oneOf [s], hatom =>
    have hs : s.wellFormed = true := Ty.wellFormed_oneOf.1 ht s (List.mem_singleton_self s)
    rw [Ty.identity]
    exact writes_shape hs hatom

/-! ## Expressions with expressions inside -/

namespace Grammar

section Inside

variable {inner : Syntax.Braces → Phrase Expr} {braces : Syntax.Braces} {name : String}
  {ts : List String}

/-- The text of a field of a record. -/
theorem writes_field {item : Phrase Expr} {t : String} {e : Expr} (hname : isIdentifier name = true)
    (h : item.Writes t.toList e) : Phrase.Writes (Field item) (name ++ ": " ++ t).toList (name, e) := by
  obtain ⟨us, hus, hcut⟩ := writes_name hname
  obtain ⟨ws, hws, hcuts⟩ := h
  refine ⟨_, .intro [':'] hus hws, fun rest hrest => ?_⟩
  have htext : (name ++ ": " ++ t).toList ++ rest =
      name.toList ++ ':' :: ' ' :: (t.toList ++ rest) := by simp
  rw [htext, hcut _ (breaks_cons rfl (by decide) _), spellings_mark ':' .colon (by decide),
    spellings_blank rfl, hcuts rest hrest, List.append_assoc, List.cons_append]

/-- The text of a record of the given fields. -/
theorem writes_instantiate {fields : List (String × Expr)} (hname : isIdentifier name = true)
    (hfields : List.Forall₂ (fun t f => Phrase.Writes (Field (inner .openFields)) t.toList f)
      ts fields) :
    Phrase.Writes (Primary inner .openFields) (name ++ braced (joinWith ", " ts)).toList
      (.instantiate name fields) := by
  rw [String.toList_append]
  exact (writes_name hname).append (Phrase.writes_listed hfields).braced
    (fun _ _ => Phrase.breaks_braced _ _) fun _ _ => .instantiate rfl

/-- The text of a call. -/
theorem writes_call {args : List Expr} (hname : isIdentifier name = true)
    (hargs : List.Forall₂ (fun t e => (inner braces).Writes t.toList e) ts args) :
    Phrase.Writes (Primary inner braces) (name ++ "(" ++ joinWith ", " ts ++ ")").toList
      (.call name args) := by
  have htext : (name ++ "(" ++ joinWith ", " ts ++ ")").toList =
      name.toList ++ '(' :: ((joinWith ", " ts).toList ++ [')']) := by simp
  rw [htext]
  exact (writes_name hname).append (Phrase.writes_listed hargs).parenthesized
    (fun _ _ => breaks_cons rfl (by decide) _) fun _ _ => .call

/-- The text of an expression between parentheses. -/
theorem writes_parenthesized {t : String} {e : Expr} (h : (inner .openFields).Writes t.toList e) :
    Phrase.Writes (Primary inner braces) ("(" ++ t ++ ")").toList e := by
  have htext : ("(" ++ t ++ ")").toList = '(' :: (t.toList ++ [')']) := by simp
  rw [htext]
  exact h.parenthesized.mono fun _ => .parenthesized

/-- The text of an arm. -/
theorem writes_arm {item : Phrase Expr} {pattern result : Expr} {binding : Option String}
    {s t : String} (hbinding : ∀ name ∈ binding, isIdentifier name = true)
    (hpattern : item.Writes s.toList pattern) (hresult : item.Writes t.toList result) :
    Phrase.Writes (Arm item) (match binding with
      | none => s ++ " => " ++ t
      | some name => s ++ " as " ++ name ++ " => " ++ t).toList (.mk pattern binding result) := by
  obtain ⟨us, hus, hcut⟩ := hpattern
  obtain ⟨ws, hws, hcuts⟩ := hresult
  have harrow : ∀ {rest}, Breaks rest → spellings (' ' :: '=' :: '>' :: ' ' :: (t.toList ++ rest)) =
      ⟨.fatArrow, ['=', '>']⟩ :: (ws ++ spellings rest) := fun hrest => by
    rw [spellings_blank rfl, Token.spellings_arrow, spellings_blank rfl, hcuts _ hrest]
  cases binding with
  | none =>
    refine ⟨_, .intro ['=', '>'] hus .none hws, fun rest hrest => ?_⟩
    have htext : (s ++ " => " ++ t).toList ++ rest =
        s.toList ++ ' ' :: '=' :: '>' :: ' ' :: (t.toList ++ rest) := by simp
    rw [htext, hcut _ (breaks_cons rfl (by decide) _), harrow hrest]
    simp
  | some name =>
    obtain ⟨vs, hvs, hcutName⟩ := writes_name (hbinding name rfl)
    refine ⟨_, .intro ['=', '>'] hus (.some ['a', 's'] hvs) hws, fun rest hrest => ?_⟩
    have htext : (s ++ " as " ++ name ++ " => " ++ t).toList ++ rest =
        s.toList ++ ' ' :: 'a' :: (['s'] ++ ' ' :: (name.toList ++
          ' ' :: '=' :: '>' :: ' ' :: (t.toList ++ rest))) := by simp
    have hword : ∀ {rest}, Breaks rest →
        spellings ('a' :: (['s'] ++ rest)) = ⟨.asWord, ['a', 's']⟩ :: spellings rest :=
      fun h => Token.spellings_word (by decide) (by decide) h
    rw [htext, hcut _ (breaks_cons rfl (by decide) _), spellings_blank rfl,
      hword (breaks_cons rfl (by decide) _), spellings_blank rfl,
      hcutName _ (breaks_cons rfl (by decide) _), harrow hrest]
    simp

/-- The text of a selection, whose arms are written after a blank. -/
theorem writes_select {scrutinee : Expr} {arms : List FlowTypes.Arm} {s : String} {cs : List Char}
    (hscrutinee : (inner .openArms).Writes s.toList scrutinee)
    (harms : Phrase.Writes (Enclosed .braceOpen .braceClose (Listed (Arm (inner braces))))
      (' ' :: cs) arms) :
    Phrase.Writes (Primary inner braces) ("match ".toList ++ (s.toList ++ ' ' :: cs))
      (.select scrutinee arms) := by
  have hinside : Phrase.Writes (fun ws a => Primary inner braces (⟨.matchWord, "match".toList⟩ :: ws) a)
      (s.toList ++ ' ' :: cs) (.select scrutinee arms) :=
    hscrutinee.append harms (fun _ _ => breaks_cons rfl (by decide) _) fun _ _ => .select _
  obtain ⟨ws, hws, hcut⟩ := hinside
  refine ⟨_, hws, fun rest hrest => ?_⟩
  have hword : ∀ {rest}, Breaks rest → spellings ('m' :: (['a', 't', 'c', 'h'] ++ rest)) =
      ⟨.matchWord, "match".toList⟩ :: spellings rest :=
    fun h => Token.spellings_word (by decide) (by decide) h
  have htext : "match ".toList ++ (s.toList ++ ' ' :: cs) ++ rest =
      'm' :: (['a', 't', 'c', 'h'] ++ ' ' :: (s.toList ++ ' ' :: cs ++ rest)) := by simp
  rw [htext, hword (breaks_cons rfl (by decide) _), spellings_blank rfl, hcut rest hrest,
    List.cons_append]

end Inside

end Grammar

end FlowTypes
