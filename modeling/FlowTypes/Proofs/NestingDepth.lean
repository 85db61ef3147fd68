import FlowTypes.Proofs.PhraseText

/-!
# How deep expressions nest

The parser counts how deep expressions stand inside each other and refuses more than
`Syntax.maxDepth` levels. What it builds can be deeper. A union of intersections adds two levels to
those that are counted, and every access adds one more, for the parser reads accesses in a loop. So
an expression that is read is at most `maxDepth` times as deep as its longest run of accesses and
three (`Expr.height_of_parse`), and no multiple of `maxDepth` bounds all that are read
(`Expr.not_height_bounded`).

`Grammar.Shallow` is the bound for a phrase. It is composed as the grammar is, and the induction is
on the levels that the parser counts (`Grammar.shallow_expression`).
-/

namespace FlowTypes

namespace Expr

/-! ## Height -/

/-- The expressions of which an expression is made. -/
def parts : Expr → List Expr
  | type _ | named _ => []
  | instantiate _ fields => fields.map Prod.snd
  | union items | intersection items | call _ items => items
  | select scrutinee arms => scrutinee :: arms.flatMap fun arm => [arm.pattern, arm.result]
  | access record _ => [record]

end Expr

mutual

/-- What `f` makes of the expression and of the greatest measure of its parts. -/
def Expr.measure (f : Expr → ℕ → ℕ) : Expr → ℕ
  | .type t => f (.type t) 0
  | .named name => f (.named name) 0
  | .instantiate name fields => f (.instantiate name fields) (Expr.fieldsMeasure f fields)
  | .union items => f (.union items) (Expr.greatestMeasure f items)
  | .intersection items => f (.intersection items) (Expr.greatestMeasure f items)
  | .call function args => f (.call function args) (Expr.greatestMeasure f args)
  | .select scrutinee arms =>
    f (.select scrutinee arms) (max (scrutinee.measure f) (Expr.armsMeasure f arms))
  | .access record field => f (.access record field) (record.measure f)

/-- The greatest measure of the parts of an arm. -/
def Arm.measure (f : Expr → ℕ → ℕ) : Arm → ℕ
  | .mk pattern _ result => max (pattern.measure f) (result.measure f)

/-- The greatest measure of some expressions. -/
def Expr.greatestMeasure (f : Expr → ℕ → ℕ) : List Expr → ℕ
  | [] => 0
  | e :: es => max (e.measure f) (Expr.greatestMeasure f es)

/-- The greatest measure in some fields. -/
def Expr.fieldsMeasure (f : Expr → ℕ → ℕ) : List (String × Expr) → ℕ
  | [] => 0
  | (_, e) :: fields => max (e.measure f) (Expr.fieldsMeasure f fields)

/-- The greatest measure in some arms. -/
def Expr.armsMeasure (f : Expr → ℕ → ℕ) : List Arm → ℕ
  | [] => 0
  | arm :: arms => max (arm.measure f) (Expr.armsMeasure f arms)

end

namespace Expr

section Measure

variable {f : Expr → ℕ → ℕ} {n : ℕ}

theorem greatestMeasure_le_iff : ∀ {es : List Expr},
    greatestMeasure f es ≤ n ↔ ∀ e ∈ es, e.measure f ≤ n
  | [] => by simp [greatestMeasure]
  | e :: es => by rw [greatestMeasure, max_le_iff, greatestMeasure_le_iff, List.forall_mem_cons]

theorem fieldsMeasure_eq : ∀ fields : List (String × Expr),
    fieldsMeasure f fields = greatestMeasure f (fields.map Prod.snd)
  | [] => rfl
  | (_, _) :: fields => by rw [fieldsMeasure, fieldsMeasure_eq fields, List.map_cons, greatestMeasure]

theorem armsMeasure_eq : ∀ arms : List Arm, armsMeasure f arms =
    greatestMeasure f (arms.flatMap fun arm => [arm.pattern, arm.result])
  | [] => rfl
  | .mk pattern _ result :: arms => by
    rw [armsMeasure, Arm.measure, armsMeasure_eq arms, max_assoc]
    rfl

theorem measure_eq : ∀ e : Expr, e.measure f = f e (greatestMeasure f e.parts)
  | type _ | named _ => by rw [measure, parts, greatestMeasure]
  | instantiate _ _ => by rw [measure, fieldsMeasure_eq, parts]
  | union _ | intersection _ | call _ _ => by rw [measure, parts]
  | select _ _ => by rw [measure, armsMeasure_eq, parts, greatestMeasure]
  | access record _ => by rw [measure, parts, greatestMeasure, greatestMeasure, Nat.max_zero]

end Measure

/-- How many levels deep the expression is. -/
def height (e : Expr) : ℕ := e.measure fun _ parts => parts + 1

/-- How many accesses the expression ends in. -/
def accesses : Expr → ℕ
  | access record _ => record.accesses + 1
  | _ => 0

/-- The length of the longest run of accesses, each of a field of the one before. -/
def longestAccess (e : Expr) : ℕ := e.measure fun e parts => max e.accesses parts

theorem height_le_iff {e : Expr} {n : ℕ} : e.height ≤ n + 1 ↔ ∀ p ∈ e.parts, p.height ≤ n := by
  rw [height, measure_eq, Nat.add_le_add_iff_right, greatestMeasure_le_iff]
  rfl

theorem longestAccess_le_iff {e : Expr} {n : ℕ} :
    e.longestAccess ≤ n ↔ e.accesses ≤ n ∧ ∀ p ∈ e.parts, p.longestAccess ≤ n := by
  rw [longestAccess, measure_eq, max_le_iff, greatestMeasure_le_iff]
  rfl

theorem height_pos (e : Expr) : 0 < e.height := by
  rw [height, measure_eq]
  exact Nat.succ_pos _

/-! ## Runs of accesses -/

theorem height_access (record : Expr) (field : String) :
    (access record field).height = record.height + 1 := by
  rw [height, measure, height]

theorem height_foldl_access : ∀ (names : List String) (e : Expr),
    (names.foldl access e).height = e.height + names.length
  | [], _ => rfl
  | name :: names, e => by
    rw [List.foldl_cons, height_foldl_access names, height_access, List.length_cons]
    omega

theorem accesses_foldl_access : ∀ (names : List String) (e : Expr),
    (names.foldl access e).accesses = e.accesses + names.length
  | [], _ => rfl
  | name :: names, e => by
    rw [List.foldl_cons, accesses_foldl_access names, accesses, List.length_cons]
    omega

theorem longestAccess_le_of_foldl {n : ℕ} : ∀ {names : List String} {e : Expr},
    (names.foldl access e).longestAccess ≤ n → e.longestAccess ≤ n
  | [], _, h => h
  | name :: names, e, h => by
    have hnext : (access e name).longestAccess ≤ n := longestAccess_le_of_foldl h
    exact (longestAccess_le_iff.1 hnext).2 e (List.mem_singleton_self e)

end Expr

/-! ## The bound -/

namespace Grammar

variable {n m : ℕ}

/-- Are the expressions of a phrase at most `m` levels deep, if no run of accesses in them is longer
than `n`? -/
def Shallow (n m : ℕ) (phrase : Phrase Expr) : Prop :=
  ∀ ws e, phrase ws e → e.longestAccess ≤ n → e.height ≤ m

theorem Shallow.mono {phrase : Phrase Expr} {m' : ℕ} (h : Shallow n m phrase) (hm : m ≤ m') :
    Shallow n m' phrase :=
  fun ws e he hn => (h ws e he hn).trans hm

/-- An expression without operators stands between parentheses, or the expressions of which it is
made are read inside of it. -/
theorem Primary.parts {inner : Syntax.Braces → Phrase Expr} {braces : Syntax.Braces}
    {ws : List Token.Spelling} {e : Expr} (h : Primary inner braces ws e) :
    (∃ vs, inner .openFields vs e) ∨
      e.accesses = 0 ∧ ∀ p ∈ e.parts, ∃ braces vs, inner braces vs p := by
  cases h with
  | type | named => exact Or.inr ⟨rfl, nofun⟩
  | call hname hargs =>
    cases hargs with
    | intro cs ds hargs =>
      exact Or.inr ⟨rfl, hargs.forall_mem fun vs a _ ha => ⟨braces, vs, ha⟩⟩
  | instantiate hbraces hname hfields =>
    cases hfields with
    | intro cs ds hfields =>
      refine Or.inr ⟨rfl, List.forall_mem_map.2 (hfields.forall_mem fun vs f _ hf => ?_)⟩
      cases hf with
      | intro cs hname he => exact ⟨_, _, he⟩
  | select cs hscrutinee harms =>
    cases harms with
    | intro cs ds harms =>
      refine Or.inr ⟨rfl, List.forall_mem_cons.2 ⟨⟨_, _, hscrutinee⟩, ?_⟩⟩
      refine List.forall_mem_flatMap.2 (harms.forall_mem fun vs a _ ha => ?_)
      cases ha with
      | intro cs hpattern hbinding hresult =>
        exact List.forall_mem_cons.2 ⟨⟨_, _, hpattern⟩, List.forall_mem_singleton.2 ⟨_, _, hresult⟩⟩
  | parenthesized h =>
    cases h with
    | intro cs ds h => exact Or.inl ⟨_, h⟩

theorem shallow_joined {join : List Expr → Expr} {separator : Token.Kind} {operand : Phrase Expr}
    (hjoin : ∀ es, (join es).parts = es) (hoperand : Shallow n m operand) :
    Shallow n (m + 1) (Joined join separator operand) := by
  intro ws e h hn
  cases h with
  | one h => exact (hoperand _ _ h hn).trans (Nat.le_succ m)
  | @several ws vs e es h hmore =>
    have hoperands : ∀ p ∈ e :: es, ∃ ws, operand ws p :=
      List.forall_mem_cons.2 ⟨⟨ws, h⟩, hmore.forall_mem fun ws p _ hp => ⟨ws, hp⟩⟩
    rw [← hjoin (e :: es)] at hoperands
    refine Expr.height_le_iff.2 fun p hp => ?_
    obtain ⟨vs, hv⟩ := hoperands p hp
    exact hoperand _ _ hv ((Expr.longestAccess_le_iff.1 hn).2 p hp)

section Bound

variable {inner : Syntax.Braces → Phrase Expr} (hinner : ∀ braces, Shallow n m (inner braces))
include hinner

theorem shallow_primary (braces : Syntax.Braces) : Shallow n (m + 1) (Primary inner braces) := by
  intro ws e h hn
  rcases h.parts with ⟨vs, he⟩ | ⟨-, hparts⟩
  · exact (hinner _ _ _ he hn).trans (Nat.le_succ m)
  · refine Expr.height_le_iff.2 fun p hp => ?_
    obtain ⟨braces, vs, hv⟩ := hparts p hp
    exact hinner braces _ _ hv ((Expr.longestAccess_le_iff.1 hn).2 p hp)

/-- Accesses are the only levels that the parser does not count. -/
theorem shallow_accesses (braces : Syntax.Braces) :
    Shallow n (m + 1 + n) (Accesses inner braces) := by
  intro ws e h hn
  cases h with
  | @intro ws vs e names he hnames =>
    have hlength : names.length ≤ n := by
      have := (Expr.longestAccess_le_iff.1 hn).1
      rw [Expr.accesses_foldl_access] at this
      omega
    rw [Expr.height_foldl_access]
    exact Nat.add_le_add (shallow_primary hinner braces _ _ he (Expr.longestAccess_le_of_foldl hn)) hlength

theorem shallow_operators (braces : Syntax.Braces) :
    Shallow n (m + (n + 3)) (Operators inner braces) := by
  have h : Shallow n (m + 1 + n + 1 + 1) (Operators inner braces) :=
    shallow_joined (fun _ => rfl) (shallow_joined (fun _ => rfl) (shallow_accesses hinner braces))
  exact h.mono (by omega)

end Bound

/-- Each level that the parser counts adds three levels and a run of accesses at most. -/
theorem shallow_expression : ∀ (depth : ℕ) (braces : Syntax.Braces),
    Shallow n ((n + 3) * depth) (Expression depth braces)
  | 0, _ => nofun
  | depth + 1, braces => shallow_operators (shallow_expression depth) braces

end Grammar

/-- An expression that is read is at most as deep as the levels that the parser allows, times the
length of its longest run of accesses and three. -/
theorem Expr.height_of_parse {source : String} {e : Expr} (h : Expr.parse source = .ok e) :
    e.height ≤ (e.longestAccess + 3) * Syntax.maxDepth :=
  Grammar.shallow_expression _ _ _ _ (Expr.parse_eq_ok_iff.1 h) le_rfl

theorem Expr.height_of_parse_accesses : ∃ e, Expr.parse "p.x.y | int" = .ok e ∧
    e.height ≤ (e.longestAccess + 3) * Syntax.maxDepth := by
  have hparse : Expr.parse "p.x.y | int" =
      .ok (.union [.access (.access (.named "p") "x") "y", .type .int]) := by decide +kernel
  exact ⟨_, hparse, Expr.height_of_parse hparse⟩

/-! ## Expressions without bound -/

/-- The accesses of a name are read, however many they are. -/
theorem Expr.parse_dotted {names : List String} (hnames : ∀ name ∈ names, isIdentifier name = true) :
    Expr.parse (String.ofList ("p".toList ++ Grammar.dotted names)) =
      .ok (names.foldl .access (.named "p")) := by
  have hname : Phrase.Writes Grammar.Name "p".toList "p" := Grammar.writes_name (by decide)
  refine Expr.parse_of_writes ?_
  rw [String.toList_ofList]
  exact (Grammar.writes_accesses (hname.mono fun _ => .named) hnames).mono fun _ h => .one (.one h)

/-- No multiple of the levels that the parser allows bounds the depth of what it builds. -/
theorem Expr.not_height_bounded :
    ¬∃ k, ∀ source e, Expr.parse source = .ok e → e.height ≤ k * Syntax.maxDepth := by
  rintro ⟨k, h⟩
  have hnames : ∀ name ∈ List.replicate (k * Syntax.maxDepth) "x", isIdentifier name = true :=
    fun _ hmem => (List.mem_replicate.1 hmem).2 ▸ (by decide)
  have hle := h _ _ (Expr.parse_dotted hnames)
  have hpos := Expr.height_pos (.named "p")
  rw [Expr.height_foldl_access, List.length_replicate] at hle
  omega

end FlowTypes
