import FlowTypes.Proofs.Identifiers
import FlowTypes.Proofs.NumberText
import FlowTypes.Proofs.QuotedText
import FlowTypes.Ty.Text

/-!
# The text of a type identifies it

Two well-formed types have one text exactly if they are equal, zeros of either sign being one
number (`Ty.text_identifies`). That they are equal if the texts are is `Ty.identity_of_text`, for
shapes `Shape.identity_of_describe`. The induction goes over the prefixes of a text : after a type
comes nothing, a comma or a closing brace (`Ends`), after a shape also a bar (`ShapeEnds`), and
where two texts so followed are the same, the types are and so is what follows
(`Ty.text_append_inj`). That equal types have one text is `Ty.text_identity` : the texts do not
show the sign of a zero.

A shape that is no quoted text starts with a word, up to the first blank or comma, and the word
tells numbers, `string` and records apart (`Shape.describe_append_inj_of_flat`).
-/

namespace FlowTypes

/-! ## What follows a type -/

/-- What may follow a type. -/
def Ends (rest : List Char) : Prop :=
  rest = [] ∨ (∃ r, rest = ',' :: r) ∨ ∃ r, rest = ' ' :: '}' :: r

/-- What may follow a shape. -/
def ShapeEnds (rest : List Char) : Prop :=
  Ends rest ∨ ∃ r, rest = ' ' :: '|' :: r

/-- Is the character one of a word, which ends at a blank or a comma and has no quote? -/
def isWordChar (c : Char) : Bool := c != ' ' && c != ',' && c != '"'

theorem Ends.shapeEnds {rest : List Char} (h : Ends rest) : ShapeEnds rest := Or.inl h

theorem ShapeEnds.stop {rest : List Char} (h : ShapeEnds rest) :
    ∀ c ∈ rest.head?, isWordChar c = false := by
  rcases h with (rfl | ⟨r, rfl⟩ | ⟨r, rfl⟩) | ⟨r, rfl⟩ <;> simp [isWordChar]

theorem ShapeEnds.ne_brace {rest r : List Char} (h : ShapeEnds rest) : rest ≠ ' ' :: '{' :: r := by
  rcases h with (rfl | ⟨r, rfl⟩ | ⟨r, rfl⟩) | ⟨r, rfl⟩ <;> simp

theorem Ends.ne_bar {rest r : List Char} (h : Ends rest) : rest ≠ ' ' :: '|' :: r := by
  rcases h with rfl | ⟨r, rfl⟩ | ⟨r, rfl⟩ <;> simp

/-! ## Alternatives and fields -/

/-- The texts of some shapes, each after a bar. -/
def barred (ss : List Shape) : List Char :=
  ss.flatMap fun s => ' ' :: '|' :: ' ' :: s.describe.toList

/-- The texts of some fields, each after a comma. -/
def listed (fields : List (String × Ty)) : List Char :=
  fields.flatMap fun f => ',' :: ' ' :: (f.1.toList ++ ':' :: ' ' :: f.2.text.toList)

theorem toList_joinWith (separator : String) : ∀ (s : String) (ss : List String),
    separator.toList ++ (joinWith separator (s :: ss)).toList =
      (s :: ss).flatMap fun t => separator.toList ++ t.toList
  | s, [] => by simp [joinWith]
  | s, t :: ss => by
    have ih := toList_joinWith separator t ss
    simp only [joinWith, String.toList_append, List.append_assoc, ih, List.flatMap_cons]

theorem texts_eq_map : ∀ ss : List Shape, Shape.texts ss = ss.map Shape.describe
  | [] => rfl
  | s :: ss => by rw [Shape.texts, texts_eq_map ss, List.map_cons]

theorem fieldTexts_eq_map : ∀ fields : List (String × Ty),
    Ty.fieldTexts fields = fields.map fun f => f.1 ++ ": " ++ f.2.text
  | [] => rfl
  | (name, t) :: fields => by rw [Ty.fieldTexts, fieldTexts_eq_map fields, List.map_cons]

theorem barred_cons (s : Shape) (ss : List Shape) :
    barred (s :: ss) = ' ' :: '|' :: ' ' :: (Ty.oneOf (s :: ss)).text.toList := by
  have h := toList_joinWith " | " s.describe (ss.map Shape.describe)
  rw [Ty.text, texts_eq_map, List.map_cons]
  rw [← List.map_cons, List.flatMap_map] at h
  exact h.symm

theorem toList_oneOf (s : Shape) (ss : List Shape) :
    (Ty.oneOf (s :: ss)).text.toList = s.describe.toList ++ barred ss := by
  have h := barred_cons s ss
  rw [barred, List.flatMap_cons] at h
  simpa [barred] using h.symm

theorem listed_eq (f : String × Ty) (fields : List (String × Ty)) :
    listed (f :: fields) = ',' :: ' ' :: (joinWith ", " (Ty.fieldTexts (f :: fields))).toList := by
  have h := toList_joinWith ", " (f.1 ++ ": " ++ f.2.text)
    (fields.map fun f => f.1 ++ ": " ++ f.2.text)
  rw [fieldTexts_eq_map, List.map_cons]
  simpa [listed, List.flatMap_map] using h.symm

theorem listed_cons (name : String) (t : Ty) (fields : List (String × Ty)) :
    listed ((name, t) :: fields) =
      ',' :: ' ' :: (name.toList ++ ':' :: ' ' :: (t.text.toList ++ listed fields)) := by
  simp [listed]

theorem toList_record (name : String) (f : String × Ty) (fields : List (String × Ty)) :
    (Shape.record name (f :: fields)).describe.toList =
      name.toList ++ ' ' :: '{' :: ((listed (f :: fields)).tail ++ [' ', '}']) := by
  rw [listed_eq, Shape.describe]
  simp [braced]

/-! ## Words -/

/-- The characters of names and of sets of numbers end no word and start no quoted text. -/
theorem isWordChar_of_isNameChar {c : Char} (h : Lexeme.isNameChar c = true) :
    isWordChar c = true := by
  have hblank : c ≠ ' ' := by rintro rfl; cases h
  have hcomma : c ≠ ',' := by rintro rfl; cases h
  have hquote : c ≠ '"' := by rintro rfl; cases h
  simp [isWordChar, hblank, hcomma, hquote]

theorem isWordChar_of_isSetChar {c : Char} (h : NumberSet.isSetChar c = true) :
    isWordChar c = true := by
  have hblank : c ≠ ' ' := by rintro rfl; cases h
  have hcomma : c ≠ ',' := by rintro rfl; cases h
  have hquote : c ≠ '"' := by rintro rfl; cases h
  simp [isWordChar, hblank, hcomma, hquote]

/-- The word that a shape starts with, if it is no quoted text. -/
def Shape.word? : Shape → Option (List Char)
  | .number n => some n.text.toList
  | .text .all => some ['s', 't', 'r', 'i', 'n', 'g']
  | .text (.literal _) => none
  | .record name _ => some name.toList

theorem isWordChar_of_mem_word {s : Shape} (hs : s.wellFormed = true) {word : List Char}
    (hword : s.word? = some word) : ∀ c ∈ word, isWordChar c = true := by
  cases s with
  | number n =>
    cases hword
    exact fun c hc => isWordChar_of_isSetChar (NumberSet.isSetChar_of_mem_text hc)
  | text t =>
    cases t with
    | all => cases hword; exact List.all_eq_true.1 rfl
    | literal s => cases hword
  | record name fields =>
    cases hword
    have hname := IsName.of_isIdentifier (Shape.wellFormed_record.1 hs).1
    exact fun c hc => isWordChar_of_isNameChar (hname.name_chars c hc)

/-- After its word, a shape goes on with its fields or not at all. -/
theorem describe_eq_word_append {s : Shape} {word : List Char} (hword : s.word? = some word)
    {rest : List Char} (hrest : ShapeEnds rest) :
    ∃ more, s.describe.toList ++ rest = word ++ more ∧ ∀ c ∈ more.head?, isWordChar c = false := by
  cases s with
  | number n => cases hword; exact ⟨rest, rfl, hrest.stop⟩
  | text t =>
    cases t with
    | all => cases hword; exact ⟨rest, rfl, hrest.stop⟩
    | literal s => cases hword
  | record name fields =>
    cases hword
    cases fields with
    | nil => exact ⟨rest, by rw [Shape.describe], hrest.stop⟩
    | cons f fields =>
      refine ⟨_, by rw [toList_record, List.append_assoc, List.cons_append], ?_⟩
      simp [isWordChar]

/-- Two shapes that are no quoted texts start with the same word where their texts do. -/
theorem word_eq_of_append {a b : Shape} (ha : a.wellFormed = true) (hb : b.wellFormed = true)
    {r r' : List Char} (hr : ShapeEnds r) (hr' : ShapeEnds r')
    (h : a.describe.toList ++ r = b.describe.toList ++ r') {v w : List Char}
    (hv : a.word? = some v) (hw : b.word? = some w) : v = w := by
  obtain ⟨more, he, hmore⟩ := describe_eq_word_append hv hr
  obtain ⟨more', he', hmore'⟩ := describe_eq_word_append hw hr'
  rw [he, he'] at h
  exact (append_inj_of_stop (isWordChar_of_mem_word ha hv) (isWordChar_of_mem_word hb hw)
    hmore hmore' h).1

theorem word_ne_nil {s : Shape} (hs : s.wellFormed = true) {word : List Char}
    (hword : s.word? = some word) : word ≠ [] := by
  cases s with
  | number n =>
    cases hword
    exact n.text_ne_nil
  | text t =>
    cases t with
    | all => cases hword; simp
    | literal s => cases hword
  | record name fields =>
    cases hword
    obtain ⟨c, rest, he, -⟩ := (IsName.of_isIdentifier (Shape.wellFormed_record.1 hs).1).start
    simp [he]

/-- A shape that starts with a word does not start with a quote. -/
theorem describe_append_ne_quote {s : Shape} (hs : s.wellFormed = true) {word : List Char}
    (hword : s.word? = some word) {rest : List Char} (hrest : ShapeEnds rest) (xs : List Char) :
    s.describe.toList ++ rest ≠ '"' :: xs := by
  obtain ⟨more, he, -⟩ := describe_eq_word_append hword hrest
  obtain ⟨c, cs, rfl⟩ := List.exists_cons_of_ne_nil (word_ne_nil hs hword)
  rw [he]
  intro h
  have hc := isWordChar_of_mem_word hs hword c List.mem_cons_self
  rw [(List.cons.inj h).1] at hc
  cases hc

/-- No set of numbers is written like a name. -/
theorem number_text_ne_name {n : NumberSet} {name : String} (h : isIdentifier name = true) :
    n.text.toList ≠ name.toList := by
  have hname := IsName.of_isIdentifier h
  obtain ⟨c, cs, he, -⟩ := hname.start
  rw [he] at hname ⊢
  refine NumberSet.text_ne_word hname.head_not_digit hname.name_chars ?_ n
  simp only [List.mem_cons, List.not_mem_nil, or_false, not_or]
  exact ⟨hname.ne_keyword (by decide) rfl, hname.ne_keyword (by decide) rfl,
    hname.ne_keyword (by decide) rfl⟩

theorem number_text_ne_string (n : NumberSet) :
    n.text.toList ≠ ['s', 't', 'r', 'i', 'n', 'g'] :=
  NumberSet.text_ne_word rfl (List.all_eq_true.1 rfl) (by decide) n

/-- The word tells the kinds of shapes apart, and records by their names. -/
theorem kind_of_word {a b : Shape} (ha : a.wellFormed = true) (hb : b.wellFormed = true)
    {word : List Char} (hv : a.word? = some word) (hw : b.word? = some word) :
    (∃ m n, a = .number m ∧ b = .number n ∧ m.text = n.text) ∨
      (a = .text .all ∧ b = .text .all) ∨
        ∃ name xs ys, a = .record name xs ∧ b = .record name ys := by
  have hstring : ∀ {name : String}, isIdentifier name = true →
      name.toList ≠ ['s', 't', 'r', 'i', 'n', 'g'] := fun h =>
    (IsName.of_isIdentifier h).ne_keyword (by decide) rfl
  cases a with
  | number m =>
    cases hv
    cases b with
    | number n => exact Or.inl ⟨m, n, rfl, rfl, String.toList_inj.1 (Option.some.inj hw).symm⟩
    | text t =>
      cases t with
      | all => exact absurd (Option.some.inj hw).symm (number_text_ne_string m)
      | literal s => cases hw
    | record name ys =>
      exact absurd (Option.some.inj hw).symm (number_text_ne_name (Shape.wellFormed_record.1 hb).1)
  | text t =>
    cases t with
    | literal s => cases hv
    | all =>
      cases hv
      cases b with
      | number n => exact absurd (Option.some.inj hw) (number_text_ne_string n)
      | text t =>
        cases t with
        | all => exact Or.inr (Or.inl ⟨rfl, rfl⟩)
        | literal s => cases hw
      | record name ys =>
        exact absurd (Option.some.inj hw) (hstring (Shape.wellFormed_record.1 hb).1)
  | record name xs =>
    cases hv
    cases b with
    | number n =>
      exact absurd (Option.some.inj hw) (number_text_ne_name (Shape.wellFormed_record.1 ha).1)
    | text t =>
      cases t with
      | all => exact absurd (Option.some.inj hw).symm (hstring (Shape.wellFormed_record.1 ha).1)
      | literal s => cases hw
    | record name' ys =>
      obtain rfl := String.toList_inj.1 (Option.some.inj hw)
      exact Or.inr (Or.inr ⟨_, xs, ys, rfl, rfl⟩)

theorem literal_of_word?_eq_none {s : Shape} (h : s.word? = none) :
    ∃ t, s = .text (.literal t) := by
  cases s with
  | number n => cases h
  | record name fields => cases h
  | text t =>
    cases t with
    | all => cases h
    | literal s => exact ⟨s, rfl⟩

theorem literal_append_eq_quote (s : String) (rest : List Char) :
    ∃ xs, (Shape.text (.literal s)).describe.toList ++ rest = '"' :: xs := by
  simp only [Shape.describe, TextSet.text, Quoted.write, String.toList_ofList]
  exact ⟨_, rfl⟩

/-- Two shapes with texts that start alike are equal, or they are records of one name. -/
theorem flat_or_record {a b : Shape} (ha : a.wellFormed = true) (hb : b.wellFormed = true)
    {r r' : List Char} (hr : ShapeEnds r) (hr' : ShapeEnds r')
    (h : a.describe.toList ++ r = b.describe.toList ++ r') :
    (a.identity = b.identity ∧ r = r') ∨
      ∃ name xs ys, a = .record name xs ∧ b = .record name ys := by
  cases hv : a.word? with
  | none =>
    obtain ⟨s, rfl⟩ := literal_of_word?_eq_none hv
    cases hw : b.word? with
    | none =>
      obtain ⟨t, rfl⟩ := literal_of_word?_eq_none hw
      simp only [Shape.describe, TextSet.text] at h
      obtain ⟨rfl, rfl⟩ := Quoted.write_append_inj h
      exact Or.inl ⟨rfl, rfl⟩
    | some w =>
      obtain ⟨xs, he⟩ := literal_append_eq_quote s r
      rw [he] at h
      exact absurd h.symm (describe_append_ne_quote hb hw hr' xs)
  | some v =>
    cases hw : b.word? with
    | none =>
      obtain ⟨t, rfl⟩ := literal_of_word?_eq_none hw
      obtain ⟨xs, he⟩ := literal_append_eq_quote t r'
      rw [he] at h
      exact absurd h (describe_append_ne_quote ha hv hr xs)
    | some w =>
      obtain rfl := word_eq_of_append ha hb hr hr' h hv hw
      rcases kind_of_word ha hb hv hw with ⟨m, n, rfl, rfl, he⟩ | ⟨rfl, rfl⟩ | hrecord
      · simp only [Shape.wellFormed] at ha hb
        simp only [Shape.describe, he] at h
        simp only [Shape.identity, NumberSet.identity_of_text ha hb he]
        exact Or.inl ⟨trivial, List.append_cancel_left h⟩
      · exact Or.inl ⟨rfl, List.append_cancel_left h⟩
      · exact Or.inr hrecord

/-- No shape starts like `any` or `never`. -/
theorem describe_append_ne_keyword {s : Shape} (hs : s.wellFormed = true) {word : List Char}
    (hword : word ∈ [['a', 'n', 'y'], ['n', 'e', 'v', 'e', 'r']]) {r r' : List Char}
    (hr : ShapeEnds r) (hr' : ShapeEnds r') : s.describe.toList ++ r ≠ word ++ r' := by
  have hkey : ∀ w ∈ [['a', 'n', 'y'], ['n', 'e', 'v', 'e', 'r']], w.all isWordChar = true :=
    List.all_eq_true.1 rfl
  intro h
  cases hv : s.word? with
  | none =>
    obtain ⟨t, rfl⟩ := literal_of_word?_eq_none hv
    obtain ⟨xs, he⟩ := literal_append_eq_quote t r
    rw [he] at h
    simp only [List.mem_cons, List.not_mem_nil, or_false] at hword
    rcases hword with rfl | rfl <;> cases h
  | some v =>
    obtain ⟨more, he, hmore⟩ := describe_eq_word_append hv hr
    rw [he] at h
    obtain ⟨rfl, -⟩ := append_inj_of_stop (isWordChar_of_mem_word hs hv)
      (List.all_eq_true.1 (hkey word hword)) hmore hr'.stop h
    simp only [List.mem_cons, List.not_mem_nil, or_false] at hword
    cases s with
    | number n =>
      have hne : ∀ {c : Char} {cs : List Char}, v = c :: cs → c.isDigit = false →
          (∀ x ∈ c :: cs, Lexeme.isNameChar x = true) →
            c :: cs ∈ [['n', 'u', 'm', 'b', 'e', 'r'], ['N', 'a', 'N'], ['i', 'n', 'f']] := by
        intro c cs hw hc hcs
        by_contra hmem
        exact NumberSet.text_ne_word hc hcs hmem n ((Option.some.inj hv).trans hw)
      rcases hword with rfl | rfl
      · exact absurd (hne rfl rfl (List.all_eq_true.1 rfl)) (by decide)
      · exact absurd (hne rfl rfl (List.all_eq_true.1 rfl)) (by decide)
    | text t =>
      cases t with
      | all => cases hv; revert hword; decide
      | literal s => cases hv
    | record name fields =>
      have hname := IsName.of_isIdentifier (Shape.wellFormed_record.1 hs).1
      rw [Option.some.inj hv] at hname
      rcases hword with rfl | rfl
      · exact hname.ne_keyword (by decide) rfl rfl
      · exact hname.ne_keyword (by decide) rfl rfl

theorem barred_cons_append (s : Shape) (ss : List Shape) (r : List Char) :
    barred (s :: ss) ++ r = ' ' :: '|' :: ' ' :: (s.describe.toList ++ (barred ss ++ r)) := by
  rw [barred_cons, toList_oneOf]
  simp only [List.cons_append, List.append_assoc]

theorem shapeEnds_barred {ss : List Shape} {r : List Char} (hr : Ends r) :
    ShapeEnds (barred ss ++ r) := by
  cases ss with
  | nil => exact hr.shapeEnds
  | cons s ss => exact Or.inr ⟨_, barred_cons_append s ss r⟩

theorem ends_listed (fields : List (String × Ty)) (r : List Char) :
    Ends (listed fields ++ ' ' :: '}' :: r) := by
  cases fields with
  | nil => exact Or.inr (Or.inr ⟨r, rfl⟩)
  | cons f fields =>
    rw [listed_eq]
    exact Or.inr (Or.inl ⟨_, rfl⟩)

/-- A union starts with a shape, and so with no keyword. -/
theorem oneOf_append_ne_keyword {s : Shape} {ss : List Shape}
    (h : (Ty.oneOf (s :: ss)).wellFormed = true) {word : List Char}
    (hword : word ∈ [['a', 'n', 'y'], ['n', 'e', 'v', 'e', 'r']]) {r r' : List Char}
    (hr : Ends r) (hr' : Ends r') : (Ty.oneOf (s :: ss)).text.toList ++ r ≠ word ++ r' := by
  rw [toList_oneOf, List.append_assoc]
  exact describe_append_ne_keyword (Ty.wellFormed_oneOf.1 h s List.mem_cons_self) hword
    (shapeEnds_barred hr) hr'.shapeEnds

/-- The fields of two records of one name, as far as their texts agree. -/
theorem listed_of_record {name : String} {xs ys : List (String × Ty)} {r r' : List Char}
    (hr : ShapeEnds r) (hr' : ShapeEnds r')
    (h : (Shape.record name xs).describe.toList ++ r =
      (Shape.record name ys).describe.toList ++ r') :
    listed xs ++ ' ' :: '}' :: r = listed ys ++ ' ' :: '}' :: r' := by
  cases xs with
  | nil =>
    cases ys with
    | nil => rw [List.append_cancel_left h]
    | cons g ys =>
      rw [toList_record, Shape.describe, List.append_assoc] at h
      exact absurd (List.append_cancel_left h) hr.ne_brace
  | cons f xs =>
    cases ys with
    | nil =>
      rw [toList_record, Shape.describe, List.append_assoc] at h
      exact absurd (List.append_cancel_left h).symm hr'.ne_brace
    | cons g ys =>
      rw [toList_record, toList_record, List.append_assoc, List.append_assoc] at h
      simpa [listed_eq] using List.append_cancel_left h

/-! ## Induction over the left type -/

mutual

/-- Where the texts of two types start alike and end, the types are equal. -/
theorem Ty.text_append_inj : ∀ (a b : Ty), a.wellFormed = true → b.wellFormed = true →
    ∀ {r r' : List Char}, Ends r → Ends r' → a.text.toList ++ r = b.text.toList ++ r' →
      a.identity = b.identity ∧ r = r'
  | .any, .any, _, _, _, _, _, _, h => ⟨rfl, List.append_cancel_left h⟩
  | .any, .oneOf [], _, _, _, _, _, _, h => by cases h
  | .oneOf [], .any, _, _, _, _, _, _, h => by cases h
  | .oneOf [], .oneOf [], _, _, _, _, _, _, h => ⟨rfl, List.append_cancel_left h⟩
  | .any, .oneOf (_ :: _), _, hb, _, _, hr, hr', h =>
    absurd h.symm (oneOf_append_ne_keyword hb (by decide) hr' hr)
  | .oneOf (_ :: _), .any, ha, _, _, _, hr, hr', h =>
    absurd h (oneOf_append_ne_keyword ha (by decide) hr hr')
  | .oneOf [], .oneOf (_ :: _), _, hb, _, _, hr, hr', h =>
    absurd h.symm (oneOf_append_ne_keyword hb (by decide) hr' hr)
  | .oneOf (_ :: _), .oneOf [], ha, _, _, _, hr, hr', h =>
    absurd h (oneOf_append_ne_keyword ha (by decide) hr hr')
  | .oneOf (s :: ss), .oneOf (t :: ts), ha, hb, r, r', hr, hr', h => by
    have hbarred : barred (s :: ss) ++ r = barred (t :: ts) ++ r' := by
      simp only [barred_cons, List.cons_append, h]
    obtain ⟨he, hrest⟩ := barred_append_inj (s :: ss) (t :: ts)
      (by simpa only [Ty.wellFormed] using ha) (by simpa only [Ty.wellFormed] using hb) hr hr' hbarred
    simp only [Ty.identity, he]
    exact ⟨trivial, hrest⟩

theorem Shape.describe_append_inj : ∀ (a b : Shape), a.wellFormed = true → b.wellFormed = true →
    ∀ {r r' : List Char}, ShapeEnds r → ShapeEnds r' →
      a.describe.toList ++ r = b.describe.toList ++ r' → a.identity = b.identity ∧ r = r'
  | .record name xs, b, ha, hb, r, r', hr, hr', h => by
    rcases flat_or_record ha hb hr hr' h with hflat | ⟨_, _, ys, he, rfl⟩
    · exact hflat
    · obtain ⟨rfl, -⟩ := Shape.record.inj he
      obtain ⟨hfields, hrest⟩ := listed_append_inj xs ys (Shape.wellFormed_record.1 ha).2
        (Shape.wellFormed_record.1 hb).2 (listed_of_record hr hr' h)
      simp only [Shape.identity, hfields]
      exact ⟨trivial, hrest⟩
  | .number n, b, ha, hb, _, _, hr, hr', h => by
    rcases flat_or_record ha hb hr hr' h with hflat | ⟨_, _, _, he, -⟩
    · exact hflat
    · cases he
  | .text t, b, ha, hb, _, _, hr, hr', h => by
    rcases flat_or_record ha hb hr hr' h with hflat | ⟨_, _, _, he, -⟩
    · exact hflat
    · cases he

theorem barred_append_inj : ∀ (xs ys : List Shape), Shape.allWellFormed xs = true →
    Shape.allWellFormed ys = true → ∀ {r r' : List Char}, Ends r → Ends r' →
      barred xs ++ r = barred ys ++ r' → Shape.identities xs = Shape.identities ys ∧ r = r'
  | [], [], _, _, _, _, _, _, h => ⟨rfl, h⟩
  | [], t :: ts, _, _, _, _, hr, _, h => by
    rw [barred_cons_append] at h
    exact absurd h hr.ne_bar
  | s :: ss, [], _, _, _, _, _, hr', h => by
    rw [barred_cons_append] at h
    exact absurd h.symm hr'.ne_bar
  | s :: ss, t :: ts, ha, hb, r, r', hr, hr', h => by
    simp only [Shape.allWellFormed, Bool.and_eq_true] at ha hb
    simp only [barred_cons_append, List.cons.injEq, true_and] at h
    obtain ⟨hs, htail⟩ := Shape.describe_append_inj s t ha.1 hb.1 (shapeEnds_barred hr)
      (shapeEnds_barred hr') h
    obtain ⟨hss, hrest⟩ := barred_append_inj ss ts ha.2 hb.2 hr hr' htail
    simp only [Shape.identities, hs, hss]
    exact ⟨trivial, hrest⟩

theorem listed_append_inj : ∀ (xs ys : List (String × Ty)), Ty.fieldsWellFormed xs = true →
    Ty.fieldsWellFormed ys = true → ∀ {r r' : List Char},
      listed xs ++ ' ' :: '}' :: r = listed ys ++ ' ' :: '}' :: r' →
        Ty.fieldIdentities xs = Ty.fieldIdentities ys ∧ r = r'
  | [], [], _, _, _, _, h => by
    simp only [listed, List.flatMap_nil, List.nil_append, List.cons.injEq, true_and] at h
    exact ⟨rfl, h⟩
  | [], _ :: _, _, _, _, _, h => by
    rw [listed_eq] at h
    cases h
  | _ :: _, [], _, _, _, _, h => by
    rw [listed_eq] at h
    cases h
  | (m, s) :: xs, (n, t) :: ys, ha, hb, r, r', h => by
    obtain ⟨hm, hs, ha⟩ := Ty.fieldsWellFormed_cons.1 ha
    obtain ⟨hn, ht, hb⟩ := Ty.fieldsWellFormed_cons.1 hb
    simp only [listed_cons, List.cons_append, List.append_assoc, List.cons.injEq, true_and] at h
    obtain ⟨hname, htype⟩ := append_inj_of_stop (IsName.of_isIdentifier hm).name_chars
      (IsName.of_isIdentifier hn).name_chars (by simp; rfl) (by simp; rfl) h
    simp only [List.cons.injEq, true_and] at htype
    obtain ⟨hst, htail⟩ := Ty.text_append_inj s t hs ht (ends_listed xs r) (ends_listed ys r') htype
    obtain ⟨hfields, hrest⟩ := listed_append_inj xs ys ha hb htail
    simp only [Ty.fieldIdentities, hst, hfields, String.toList_inj.1 hname]
    exact ⟨trivial, hrest⟩

end

/-- Types with one text are equal. -/
theorem Ty.identity_of_text {a b : Ty} (ha : a.wellFormed = true) (hb : b.wellFormed = true)
    (h : a.text = b.text) : a.identity = b.identity :=
  have hend : Ends [] := Or.inl rfl
  (Ty.text_append_inj a b ha hb hend hend (by rw [h])).1

/-- Shapes with one text are equal. -/
theorem Shape.identity_of_describe {a b : Shape} (ha : a.wellFormed = true)
    (hb : b.wellFormed = true) (h : a.describe = b.describe) : a.identity = b.identity := by
  have hend : ShapeEnds [] := Ends.shapeEnds (Or.inl rfl)
  exact (Shape.describe_append_inj a b ha hb hend hend (by rw [h])).1

/-! ## Texts do not show the sign of a zero -/

theorem NumberSet.text_identity (n : NumberSet) : n.identity.text = n.text := by
  cases n with
  | literal v =>
    cases v with
    | finite s m hm =>
      simp only [identity, text, Binary64.unsignedZero]
      split
      · next h => simp only [Binary64.zero, Binary64.text, h, if_true]
      · rfl
    | _ => rfl
  | _ => rfl

mutual

theorem Ty.text_identity : ∀ t : Ty, t.identity.text = t.text
  | .any => by simp only [Ty.identity]
  | .oneOf [] => by simp only [Ty.identity, Shape.identities]
  | .oneOf (s :: ss) => by
    have h := Shape.texts_identities (s :: ss)
    simp only [Ty.identity, Shape.identities] at h ⊢
    simp only [Ty.text, h]

theorem Shape.describe_identity : ∀ s : Shape, s.identity.describe = s.describe
  | .number n => by simp only [Shape.identity, Shape.describe, NumberSet.text_identity]
  | .text _ => by simp only [Shape.identity]
  | .record name [] => by simp only [Shape.identity, Ty.fieldIdentities]
  | .record name (field :: fields) => by
    have h := Ty.fieldTexts_identities (field :: fields)
    obtain ⟨m, t⟩ := field
    simp only [Shape.identity, Ty.fieldIdentities] at h ⊢
    simp only [Shape.describe, h]

theorem Shape.texts_identities (ss : List Shape) :
    Shape.texts (Shape.identities ss) = Shape.texts ss := by
  cases ss with
  | nil => simp only [Shape.identities]
  | cons s ss =>
    simp only [Shape.identities, Shape.texts, Shape.describe_identity s, Shape.texts_identities ss]

theorem Ty.fieldTexts_identities (fields : List (String × Ty)) :
    Ty.fieldTexts (Ty.fieldIdentities fields) = Ty.fieldTexts fields := by
  rcases fields with _ | ⟨⟨name, t⟩, fields⟩
  · simp only [Ty.fieldIdentities]
  · simp only [Ty.fieldIdentities, Ty.fieldTexts, Ty.text_identity t,
      Ty.fieldTexts_identities fields]

end

/-- The text of a well-formed type is its identity : two types are written alike exactly if they
are equal, zeros of either sign being one number. -/
theorem Ty.text_identifies {a b : Ty} (ha : a.wellFormed = true) (hb : b.wellFormed = true) :
    a.text = b.text ↔ a.same b = true := by
  constructor
  · intro h
    exact decide_eq_true (Ty.identity_of_text ha hb h)
  · intro h
    have hidentity : a.identity = b.identity := of_decide_eq_true h
    rw [← Ty.text_identity a, ← Ty.text_identity b, hidentity]

/-- Two records that differ in the sign of a zero, and have separators in a text. -/
theorem Ty.text_identifies_signed_zero :
    let record (zero : Binary64) := Ty.ofShape (.record "P"
      [("x", .oneOf [.number (.literal zero), .text (.literal " \x7d | y: 1, ")])])
    let negativeZero : Binary64 := .finite true 0 ⟨rfl, Nat.zero_le _⟩
    (record .zero).wellFormed = true ∧ (record negativeZero).wellFormed = true ∧
      ((record .zero).text = (record negativeZero).text ↔
        (record .zero).same (record negativeZero) = true) :=
  ⟨by decide +kernel, by decide +kernel,
    Ty.text_identifies (by decide +kernel) (by decide +kernel)⟩

end FlowTypes
