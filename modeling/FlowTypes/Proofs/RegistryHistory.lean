import FlowTypes.Proofs.DefinitionGrammar
import FlowTypes.Proofs.ReadDefinitions
import Mathlib.Logic.Relation

/-!
# What becomes of a registry

Nothing that is defined is lost, whatever is done to a registry (`Registry.history_lossless`). All
changes come down to one step, the addition of one definition under a free name at the end of its
list (`Registry.Adds`). A change is refused and adds nothing, or is one addition, or reads a source
text, which adds the definitions at its front (`Registry.grows_apply`). So what one addition keeps
every history keeps, and the definitions before it are at the front of those after it
(`Registry.Extends`).

What a source text adds is told by the grammar (`Registry.parse_split`) : the definitions that are
complete and accepted, up to the first that is not.
-/

namespace FlowTypes

open Relation (ReflTransGen)

/-! ## Changes -/

/-- What is done to a registry. -/
inductive Registry.Change
  | addAlias (name : String) (value : Expr)
  | addStruct (name : String) (fields : List (String × Expr))
  | addFunction (f : Function)
  | parse (source : String)

/-- Is one definition added? -/
def Registry.Change.IsAddition : Change → Prop
  | parse _ => False
  | _ => True

/-- The alias that a definition is, with its name. -/
def Syntax.Definition.alias? : Definition → Option (String × Expr)
  | ofAlias name _ value => some (name, value)
  | ofStruct .. => none

/-- The struct that a definition is. -/
def Syntax.Definition.struct? : Definition → Option Struct
  | ofAlias .. => none
  | ofStruct name _ fields => some ⟨name, fields⟩

namespace Registry

/-- The registry after an addition, and why it was refused. What is refused changes nothing. -/
def settle (r : Registry) : Except DefinitionError Registry → Registry × Option String
  | .ok r' => (r', none)
  | .error e => (r, some e.message)

/-- The registry after a change, and what is said if it failed. -/
def apply (r : Registry) : Change → Registry × Option String
  | .addAlias name value => r.settle (r.addAlias name value)
  | .addStruct name fields => r.settle (r.addStruct name fields)
  | .addFunction f => r.settle (r.addFunction f)
  | .parse source => ((r.parse source).1, (r.parse source).2.map SyntaxError.message)

/-- The registry after some changes, failed or not. -/
def run (r : Registry) (changes : List Change) : Registry :=
  changes.foldl (fun r change => (r.apply change).1) r

/-! ## Additions -/

variable {r r' : Registry}

/-- Is the second registry the first with one definition more, of a free name, at the end of its
list? -/
inductive Adds (r : Registry) : Registry → Prop
  | ofAlias {name : String} (value : Expr) (hname : name ∉ r.typeNames) :
      Adds r { r with aliases := r.aliases ++ [(name, value)] }
  | ofStruct {name : String} {fields : List (String × Expr)} (hname : name ∉ r.typeNames)
      (hfields : (fields.map (·.1)).Nodup) :
      Adds r { r with structs := r.structs ++ [⟨name, fields⟩] }
  | ofFunction {f : Function} (hname : f.name ∉ r.functions.map (·.name)) :
      Adds r { r with functions := r.functions ++ [f] }

theorem adds_of_addAlias {name : String} {value : Expr} (h : r.addAlias name value = .ok r') :
    r.Adds r' := by
  obtain ⟨hname, rfl⟩ := addAlias_eq_ok h
  exact .ofAlias value hname

theorem adds_of_addStruct {name : String} {fields : List (String × Expr)}
    (h : r.addStruct name fields = .ok r') : r.Adds r' := by
  obtain ⟨hname, hfields, rfl⟩ := addStruct_eq_ok h
  exact .ofStruct hname hfields

theorem adds_of_addFunction {f : Function} (h : r.addFunction f = .ok r') : r.Adds r' := by
  unfold addFunction at h
  split at h <;> cases h
  next hname => exact .ofFunction hname

theorem adds_of_add {d : Syntax.Definition} (h : r.add d = .ok r') : r.Adds r' := by
  cases d with
  | ofStruct => exact adds_of_addStruct (eq_ok_of_mapError h)
  | ofAlias => exact adds_of_addAlias (eq_ok_of_mapError h)

/-! ## Source texts -/

/-- Is the second registry the first with the definitions after those it has? -/
structure Appends (r : Registry) (ds : List Syntax.Definition) (r' : Registry) : Prop where
  aliases : r'.aliases = r.aliases ++ ds.filterMap (·.alias?)
  structs : r'.structs = r.structs ++ ds.filterMap (·.struct?)
  functions : r'.functions = r.functions

theorem appends_of_add {d : Syntax.Definition} (h : r.add d = .ok r') : r.Appends [d] r' := by
  cases d with
  | ofStruct =>
    obtain ⟨-, -, rfl⟩ := addStruct_eq_ok (eq_ok_of_mapError h)
    exact ⟨(List.append_nil _).symm, rfl, rfl⟩
  | ofAlias =>
    obtain ⟨-, rfl⟩ := addAlias_eq_ok (eq_ok_of_mapError h)
    exact ⟨rfl, (List.append_nil _).symm, rfl⟩

theorem Appends.cons {d : Syntax.Definition} {ds : List Syntax.Definition} {r₁ : Registry}
    (h : r.Appends [d] r₁) (hmore : r₁.Appends ds r') : r.Appends (d :: ds) r' where
  aliases := by
    rw [hmore.aliases, h.aliases, List.append_assoc, ← List.filterMap_append, List.singleton_append]
  structs := by
    rw [hmore.structs, h.structs, List.append_assoc, ← List.filterMap_append, List.singleton_append]
  functions := hmore.functions.trans h.functions

/-- Definitions that are accepted one after the other are appended. -/
theorem appends_of_foldlM : ∀ {ds : List Syntax.Definition} {r r' : Registry},
    ds.foldlM add r = .ok r' → ReflTransGen Adds r r' ∧ r.Appends ds r'
  | [], r, _, h => by
    cases h
    exact ⟨.refl, (List.append_nil _).symm, (List.append_nil _).symm, rfl⟩
  | d :: ds, r, r', h => by
    rw [List.foldlM_cons] at h
    cases hadd : r.add d with
    | error e =>
      rw [hadd] at h
      cases h
    | ok r₁ =>
      rw [hadd] at h
      obtain ⟨hgrows, hds⟩ := appends_of_foldlM h
      exact ⟨.head (adds_of_add hadd) hgrows, (appends_of_add hadd).cons hds⟩

/-- A source text adds the definitions at its front, as many as there are before the first that is
incomplete or refused, and fails if anything is left. -/
theorem parse_split (r : Registry) (source : String) : ∃ ws ds left,
    Token.spellings source.toList = ws ++ left ∧ Grammar.Definitions ws ds ∧
      ds.foldlM add r = .ok (r.parse source).1 ∧
      ((r.parse source).2 = none ↔ left = []) ∧ (r.parse source).1.Blocks left :=
  addTokens_split _ r (Token.lex source)

/-! ## Histories -/

/-- Every change is a number of additions. -/
theorem grows_apply (r : Registry) (change : Change) :
    ReflTransGen Adds r (r.apply change).1 := by
  have hsettle : ∀ {result : Except DefinitionError Registry},
      (∀ r', result = .ok r' → r.Adds r') → ReflTransGen Adds r (r.settle result).1 := by
    intro result hresult
    cases result with
    | error e => exact .refl
    | ok r' => exact .single (hresult r' rfl)
  cases change with
  | addAlias => exact hsettle fun _ => adds_of_addAlias
  | addStruct => exact hsettle fun _ => adds_of_addStruct
  | addFunction => exact hsettle fun _ => adds_of_addFunction
  | parse source =>
    obtain ⟨_, _, _, -, -, hds, -⟩ := r.parse_split source
    exact (appends_of_foldlM hds).1

theorem grows_run : ∀ (r : Registry) (changes : List Change), ReflTransGen Adds r (r.run changes)
  | _, [] => .refl
  | r, change :: changes => (r.grows_apply change).trans (grows_run _ changes)

/-- Does the second registry have the definitions of the first, in their places, and others only
after them? -/
structure Extends (r r' : Registry) : Prop where
  aliases : r.aliases <+: r'.aliases
  structs : r.structs <+: r'.structs
  functions : r.functions <+: r'.functions

theorem Extends.refl (r : Registry) : r.Extends r :=
  ⟨List.prefix_rfl, List.prefix_rfl, List.prefix_rfl⟩

theorem Extends.trans {r₁ : Registry} (h : r.Extends r₁) (h' : r₁.Extends r') : r.Extends r' :=
  ⟨h.aliases.trans h'.aliases, h.structs.trans h'.structs, h.functions.trans h'.functions⟩

theorem Adds.extends (h : r.Adds r') : r.Extends r' := by
  cases h with
  | ofAlias => exact ⟨List.prefix_append _ _, List.prefix_rfl, List.prefix_rfl⟩
  | ofStruct => exact ⟨List.prefix_rfl, List.prefix_append _ _, List.prefix_rfl⟩
  | ofFunction => exact ⟨List.prefix_rfl, List.prefix_rfl, List.prefix_append _ _⟩

theorem extends_of_grows (h : ReflTransGen Adds r r') : r.Extends r' := by
  induction h with
  | refl => exact .refl r
  | tail _ hadds ih => exact ih.trans hadds.extends

/-- Are names distinct, those of aliases and structs from each other, and those of functions? -/
structure Unambiguous (r : Registry) : Prop extends Distinct r where
  functionNames : (r.functions.map (·.name)).Nodup

theorem unambiguous_empty : empty.Unambiguous :=
  ⟨Read.empty.distinct, List.nodup_nil⟩

theorem unambiguous_withBuiltins : withBuiltins.Unambiguous :=
  ⟨Read.withBuiltins.distinct, by decide⟩

theorem Adds.unambiguous (h : r.Adds r') (hr : r.Unambiguous) : r'.Unambiguous := by
  cases h with
  | ofAlias value hname =>
    refine ⟨⟨?_, hr.fields⟩, hr.functionNames⟩
    rw [typeNames, List.map_append, List.append_assoc]
    exact List.nodup_middle.2 (List.nodup_cons.2 ⟨hname, hr.names⟩)
  | ofStruct hname hfields =>
    refine ⟨⟨?_, ?_⟩, hr.functionNames⟩
    · rw [typeNames, List.map_append, ← List.append_assoc]
      exact List.nodup_append_comm.1 (List.nodup_cons.2 ⟨hname, hr.names⟩)
    · exact List.forall_mem_append.2 ⟨hr.fields, List.forall_mem_singleton.2 hfields⟩
  | ofFunction hname =>
    refine ⟨⟨hr.names, hr.fields⟩, ?_⟩
    rw [List.map_append]
    exact List.nodup_append_comm.1 (List.nodup_cons.2 ⟨hname, hr.functionNames⟩)

theorem Unambiguous.grows (hr : r.Unambiguous) (h : ReflTransGen Adds r r') : r'.Unambiguous := by
  induction h with
  | refl => exact hr
  | tail _ hadds ih => exact hadds.unambiguous ih

/-- A list in which every member has a key of its own is searched by key. -/
theorem find?_key_of_mem {α : Type} {key : α → String} {as : List α} (has : (as.map key).Nodup)
    {a : α} (ha : a ∈ as) : (as.find? fun b => key b = key a) = some a := by
  cases hfind : as.find? fun b => key b = key a with
  | none => simpa using List.find?_eq_none.1 hfind a ha
  | some b =>
    have hkey : key b = key a := by simpa using List.find?_some hfind
    rw [List.inj_on_of_nodup_map has (List.mem_of_find?_eq_some hfind) ha hkey]

/-- Is every definition found under its name? -/
structure Finds (r : Registry) : Prop where
  alias? : ∀ a ∈ r.aliases, r.alias? a.1 = some a.2
  struct? : ∀ s ∈ r.structs, r.struct? s.name = some s
  function? : ∀ f ∈ r.functions, r.function? f.name = some f

theorem Unambiguous.finds (hr : r.Unambiguous) : r.Finds where
  alias? a ha := by
    rw [Registry.alias?, find?_key_of_mem (List.nodup_append.1 hr.names).1 ha, Option.map_some]
  struct? _ := find?_key_of_mem (List.nodup_append.1 hr.names).2.1
  function? _ := find?_key_of_mem hr.functionNames

/-- What fails adds nothing, unless it is a source text. -/
theorem apply_of_refused {change : Change} (hchange : change.IsAddition)
    (h : (r.apply change).2 ≠ none) : (r.apply change).1 = r := by
  have hsettle : ∀ {result : Except DefinitionError Registry},
      (r.settle result).2 ≠ none → (r.settle result).1 = r := by
    intro result hresult
    cases result with
    | error e => rfl
    | ok r' => exact absurd rfl hresult
  cases change with
  | parse => exact hchange.elim
  | _ => exact hsettle h

/-- Whatever is done to a registry, from the beginning. The names of aliases and structs are
disjoint, and those of the fields of a struct. The definitions that there are at some time keep
their places and are found under their names ever after. An addition that is refused changes
nothing. A source text that fails adds exactly the definitions that are complete and accepted before
the error, in order. -/
theorem history_lossless {start : Registry} (hstart : start = empty ∨ start = withBuiltins)
    (before after : List Change) :
    (∀ name ∈ (start.run before).aliases.map (·.1),
      name ∉ (start.run before).structs.map (·.name)) ∧
    (∀ s ∈ (start.run before).structs, (s.fields.map (·.1)).Nodup) ∧
    (start.run before).Extends (start.run (before ++ after)) ∧
    (∀ a ∈ (start.run before).aliases, (start.run (before ++ after)).alias? a.1 = some a.2) ∧
    (∀ s ∈ (start.run before).structs, (start.run (before ++ after)).struct? s.name = some s) ∧
    (∀ f ∈ (start.run before).functions,
      (start.run (before ++ after)).function? f.name = some f) ∧
    (∀ change : Change, change.IsAddition → ((start.run before).apply change).2 ≠ none →
      ((start.run before).apply change).1 = start.run before) ∧
    ∀ source, ((start.run before).apply (.parse source)).2 ≠ none → ∃ ws ds left,
      Token.spellings source.toList = ws ++ left ∧ Grammar.Definitions ws ds ∧ left ≠ [] ∧
      ds.foldlM add (start.run before) = .ok ((start.run before).apply (.parse source)).1 ∧
      (start.run before).Appends ds ((start.run before).apply (.parse source)).1 ∧
      ((start.run before).apply (.parse source)).1.Blocks left := by
  have hunambiguous : ∀ changes, (start.run changes).Unambiguous := by
    have hbegin : start.Unambiguous := by
      rcases hstart with rfl | rfl
      · exact unambiguous_empty
      · exact unambiguous_withBuiltins
    exact fun changes => hbegin.grows (start.grows_run changes)
  have hextends : (start.run before).Extends (start.run (before ++ after)) := by
    rw [run, run, List.foldl_append]
    exact extends_of_grows (grows_run _ after)
  have hnow := hunambiguous before
  have hlater := (hunambiguous (before ++ after)).finds
  refine ⟨fun name ha hs => ?_, hnow.fields, hextends, fun a ha => ?_, fun s hs => ?_,
    fun f hf => ?_, fun change => apply_of_refused, fun source hfails => ?_⟩
  · exact (List.nodup_append.1 hnow.names).2.2 name ha name hs rfl
  · exact hlater.alias? a (hextends.aliases.subset ha)
  · exact hlater.struct? s (hextends.structs.subset hs)
  · exact hlater.function? f (hextends.functions.subset hf)
  · obtain ⟨ws, ds, left, hleft, hds, hfold, hnone, hblocks⟩ := parse_split _ source
    refine ⟨ws, ds, left, hleft, hds, fun hnil => hfails ?_, hfold, (appends_of_foldlM hfold).2,
      hblocks⟩
    exact congrArg (Option.map SyntaxError.message) (hnone.2 hnil)

/-- The alias that a source text defines before its error is still there after its name was refused
to a struct, and the alias after the error is not. -/
theorem history_lossless_refused :
    (withBuiltins.run [.parse "let A = 1; let A = 2; let B = 3;"]).aliases =
      [("A", .type (.literal .one))] ∧
    ((withBuiltins.run [.parse "let A = 1; let A = 2; let B = 3;"]).apply (.addStruct "A" [])).2 =
      some "`A` is already defined" ∧
    (withBuiltins.run ([.parse "let A = 1; let A = 2; let B = 3;"] ++ [.addStruct "A" []])).alias?
      "A" = some (.type (.literal .one)) := by
  have haliases : (withBuiltins.run [.parse "let A = 1; let A = 2; let B = 3;"]).aliases =
      [("A", .type (.literal .one))] := by decide +kernel
  obtain ⟨-, -, -, halias, -⟩ := history_lossless (.inr rfl)
    [.parse "let A = 1; let A = 2; let B = 3;"] [.addStruct "A" []]
  exact ⟨haliases, by decide +kernel,
    halias ("A", .type (.literal .one)) (haliases ▸ List.mem_singleton_self _)⟩

end Registry

end FlowTypes
