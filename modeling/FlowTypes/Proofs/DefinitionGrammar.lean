import FlowTypes.Proofs.GrammarComplete
import FlowTypes.Syntax.Definitions

/-!
# The grammar of definitions

What stretches of tokens can be read as definitions (`Grammar.Definition`). As for expressions, the
parser keeps to the grammar (`Syntax.takes_definition`) and reads all of it
(`Syntax.reads_definition`). A definition ends with a token of its own, a semicolon or a brace, so
it is read whatever comes next.

So a registry that is filled from tokens is known by the grammar. The definitions at the front of
the tokens are added one after the other (`Registry.addTokens_of_definitions`), as many as there are
before the first that is incomplete or refused (`Registry.addTokens_split`).
-/

namespace FlowTypes

/-! ## The rules -/

/-- The definition, with its name in another place. -/
def Syntax.Definition.moved (span : Span) : Syntax.Definition → Syntax.Definition
  | .ofStruct name _ fields => .ofStruct name span fields
  | .ofAlias name _ value => .ofAlias name span value

namespace Grammar

/-- A definition, with the word that announces it. Where its name stands does not matter. -/
inductive Definition : Phrase Syntax.Definition
  | ofUnit {us : List Token.Spelling} {name : String} (cs ds : List Char) (span : Span)
      (hname : Name us name) :
      Definition (⟨.structWord, cs⟩ :: (us ++ [⟨.semicolon, ds⟩])) (.ofStruct name span [])
  | ofStruct {us ws : List Token.Spelling} {name : String} {fields : List (String × Expr)}
      (cs : List Char) (span : Span) (hname : Name us name)
      (hfields : Enclosed .braceOpen .braceClose
        (Listed (Field (Expression Syntax.maxDepth .openFields))) ws fields) :
      Definition (⟨.structWord, cs⟩ :: (us ++ ws)) (.ofStruct name span fields)
  | ofAlias {us ws : List Token.Spelling} {name : String} {value : Expr} (cs ds es : List Char)
      (span : Span) (hname : Name us name)
      (hvalue : Expression Syntax.maxDepth .openFields ws value) :
      Definition (⟨.letWord, cs⟩ :: (us ++ ⟨.equals, ds⟩ :: (ws ++ [⟨.semicolon, es⟩])))
        (.ofAlias name span value)

/-- Definitions, one after the other. -/
inductive Definitions : Phrase (List Syntax.Definition)
  | nil : Definitions [] []
  | cons {ws vs : List Token.Spelling} {d : Syntax.Definition} {ds : List Syntax.Definition}
      (h : Definition ws d) (hmore : Definitions vs ds) : Definitions (ws ++ vs) (d :: ds)

end Grammar

/-! ## The parser -/

namespace Syntax

open FlowTypes.Parser (Takes Reads takes_name takes_accept takes_expect reads_name)

/-- What the parser takes of the tokens is a definition, with the word before them. -/
theorem takes_definition {kind : Token.Kind} {definition : Parser Definition} (cs : List Char)
    (h : announced? kind = some definition) :
    Takes (fun ws d => Grammar.Definition (⟨kind, cs⟩ :: ws) d) definition := by
  unfold announced? at h
  split at h <;> cases h
  · refine takes_name.bind fun us ⟨name, span⟩ hname => (takes_accept .semicolon).bind
      fun vs isUnit hsemicolon => ?_
    split at hsemicolon
    · next hunit =>
      obtain ⟨ds, rfl⟩ := hsemicolon
      rw [if_pos hunit]
      exact Takes.pure (by simpa using .ofUnit cs ds span hname)
    · next hunit =>
      subst hsemicolon
      rw [if_neg hunit]
      refine (takes_fields (takes_expression _ _)).bind fun ws fs hfs => Takes.pure ?_
      simpa using .ofStruct cs span hname hfs
  · refine takes_name.bind fun us ⟨name, span⟩ hname => (takes_expect .equals).bind
      fun _ t ⟨_, ht⟩ => (takes_expression _ _).bind fun ws value hvalue =>
      (takes_expect .semicolon).bind fun _ u ⟨_, hu⟩ => Takes.pure ?_
    subst ht hu
    simpa using .ofAlias cs t.text u.text span hname hvalue

/-- The parser reads every definition, whatever comes next. -/
theorem reads_definition {ws : List Token.Spelling} {d : Definition} (h : Grammar.Definition ws d) :
    ∃ kind cs vs definition, ws = ⟨kind, cs⟩ :: vs ∧ announced? kind = some definition ∧
      Reads definition vs (fun _ => True) fun d' => ∃ span, d' = d.moved span := by
  cases h with
  | ofUnit cs ds span hname =>
    refine ⟨_, _, _, _, rfl, rfl, (reads_name hname).next fun ⟨name', span'⟩ hname' =>
      Reads.accept (Reads.pure ⟨span', ?_⟩)⟩
    rw [← hname']
    rfl
  | ofStruct cs span hname hfields =>
    refine ⟨_, _, _, _, rfl, rfl, (reads_name hname).next fun ⟨name', span'⟩ hname' => ?_⟩
    have hread : Reads (fields (expression maxDepth .openFields)) _ (fun _ => True) _ :=
      reads_fields (covers_expression _ _) hfields
    cases hfields with
    | intro =>
      refine Reads.accept_not (fun _ _ => Grammar.stopsAt_cons.2 (by simp)) ?_
      refine hread.last fun fs hfs => Reads.pure ⟨span', ?_⟩
      rw [hfs, ← hname']
      rfl
  | ofAlias cs ds es span hname hvalue =>
    refine ⟨_, _, _, _, rfl, rfl, (reads_name hname).next fun ⟨name', span'⟩ hname' =>
      Reads.expect fun _ _ => ((covers_expression _ _).reads hvalue).bind
        (fun value' hvalue' => Reads.expect fun _ _ => Reads.pure ⟨span', ?_⟩)
        fun _ _ => Grammar.stopsAt_cons.2 (by simp [Grammar.afterExpression, Grammar.afterPrimary])⟩
    rw [hvalue', ← hname']
    rfl

end Syntax

/-! ## Registries -/

namespace Registry

variable {r r' : Registry} {n : ℕ} {ts : List Token} {ws left : List Token.Spelling}
  {d : Syntax.Definition} {ds : List Syntax.Definition}

/-- Where its name stands does not matter to whether a definition is accepted. -/
theorem add_moved_eq_ok {span : Span} : r.add (d.moved span) = .ok r' ↔ r.add d = .ok r' := by
  have hmapError : ∀ {x : Except DefinitionError Registry} {f g : DefinitionError → SyntaxError},
      x.mapError f = .ok r' ↔ x.mapError g = .ok r' := fun {x} _ _ => by
    cases x <;> simp [Except.mapError]
  cases d with
  | ofStruct => exact hmapError
  | ofAlias => exact hmapError

/-- A definition at the front of the tokens is read first. -/
theorem exists_read (h : Grammar.Definition ws d) (hts : ts.map Token.spelling = ws ++ left)
    (n : ℕ) : ∃ t rest definition span rest', ts = t :: rest ∧
      Syntax.announced? t.kind = some definition ∧ definition n rest = .ok (d.moved span, rest') ∧
      rest'.1 = ts.drop ws.length := by
  obtain ⟨kind, cs, vs, definition, rfl, hannounced, hreads⟩ := Syntax.reads_definition h
  obtain ⟨t, rest, rfl, ht, hrest⟩ := List.map_eq_cons_iff.1 hts
  obtain ⟨_, rest', hread, ⟨span, rfl⟩, hleft⟩ := hreads n rest left hrest trivial
  have hkind : Syntax.announced? t.kind = some definition :=
    (congrArg (fun s => Syntax.announced? s.kind) ht).trans hannounced
  have hlength : rest.length - rest'.1.length = vs.length := by
    have hall := congrArg List.length hrest
    rw [List.length_map, List.append_eq, List.length_append, ← hleft, List.length_map] at hall
    omega
  refine ⟨t, rest, definition, span, rest', rfl, hkind, hread, ?_⟩
  rw [List.length_cons, List.drop_succ_cons, ← hlength]
  exact List.suffix_iff_eq_drop.1 rest'.2

/-- Definitions that are accepted are added one after the other. -/
theorem addTokens_of_definitions (h : Grammar.Definitions ws ds) : ∀ {r : Registry}
    {ts : List Token}, ts.map Token.spelling = ws ++ left → ds.foldlM add r = .ok r' →
      r.addTokens n ts = r'.addTokens n (ts.drop ws.length) := by
  induction h with
  | nil =>
    intro r ts _ hds
    cases hds
    rfl
  | @cons ws vs d ds h hmore ih =>
    intro r ts hts hds
    rw [List.append_assoc] at hts
    obtain ⟨t, rest, definition, span, rest', rfl, hannounced, hread, hrest⟩ := exists_read h hts n
    obtain ⟨r₁, hadd, hds⟩ : ∃ r₁, r.add d = .ok r₁ ∧ ds.foldlM add r₁ = .ok r' := by
      rw [List.foldlM_cons] at hds
      cases hadd : r.add d with
      | error e =>
        rw [hadd] at hds
        cases hds
      | ok r₁ =>
        rw [hadd] at hds
        exact ⟨r₁, rfl, hds⟩
    have hvs : rest'.1.map Token.spelling = vs ++ left := by
      rw [hrest, List.map_drop, hts, List.drop_left]
    rw [addTokens]
    simp only [hannounced, hread, add_moved_eq_ok.2 hadd]
    rw [ih hvs hds, hrest, List.drop_drop, List.length_append]

/-- Does the registry refuse every definition at the front of the tokens? It does so too if there
is none that is complete. -/
def Blocks (r : Registry) (left : List Token.Spelling) : Prop :=
  ∀ ws rest d, left = ws ++ rest → Grammar.Definition ws d → ∃ e, r.add d = .error e

theorem blocks_nil (r : Registry) : r.Blocks [] := by
  intro ws rest d hleft hd
  have hts : ([] : List Token).map Token.spelling = ws ++ rest := hleft
  obtain ⟨_, _, _, _, _, hts, -⟩ := exists_read hd hts 0
  cases hts

/-- It is enough to refuse what the parser reads. -/
theorem blocks_of_read {t : Token} {rest : List Token} (h : ∀ definition d rest',
    Syntax.announced? t.kind = some definition → definition n rest = .ok (d, rest') →
      ∃ e, r.add d = .error e) : r.Blocks ((t :: rest).map Token.spelling) := by
  intro ws left d hleft hd
  obtain ⟨_, _, definition, span, rest', hts, hannounced, hread, -⟩ := exists_read hd hleft n
  cases hts
  obtain ⟨e, he⟩ := h definition _ rest' hannounced hread
  cases hadd : r.add d with
  | error e => exact ⟨e, rfl⟩
  | ok r' =>
    rw [add_moved_eq_ok.2 hadd] at he
    cases he

/-- The tokens are those of the definitions that are added, and others, of which there are none, or
which start with what is incomplete or refused. -/
theorem addTokens_split (n : ℕ) (r : Registry) (ts : List Token) : ∃ ws ds left,
    ts.map Token.spelling = ws ++ left ∧ Grammar.Definitions ws ds ∧
      ds.foldlM add r = .ok (r.addTokens n ts).1 ∧
      ((r.addTokens n ts).2 = none ↔ left = []) ∧ (r.addTokens n ts).1.Blocks left := by
  fun_induction addTokens n r ts with
  | case1 r => exact ⟨[], [], [], rfl, .nil, rfl, by simp, blocks_nil r⟩
  | case2 r t rest hannounced =>
    refine ⟨[], [], _, rfl, .nil, rfl, by simp, blocks_of_read (n := n) fun _ _ _ h => ?_⟩
    rw [hannounced] at h
    cases h
  | case3 r t rest definition hannounced e hread =>
    refine ⟨[], [], _, rfl, .nil, rfl, by simp, blocks_of_read (n := n) fun _ _ _ h hread' => ?_⟩
    rw [hannounced] at h
    cases h
    rw [hread] at hread'
    cases hread'
  | case4 r t rest definition hannounced d rest' hsuffix hread e hadd =>
    refine ⟨[], [], _, rfl, .nil, rfl, by simp, blocks_of_read (n := n) fun _ _ _ h hread' => ?_⟩
    rw [hannounced] at h
    cases h
    rw [hread] at hread'
    cases hread'
    exact ⟨e, hadd⟩
  | case5 r t rest definition hannounced d rest' hsuffix hread r' hadd _ ih =>
    obtain ⟨ws, ds, left, hleft, hds, hfold, hnone, hblocks⟩ := ih
    obtain ⟨vs, hvs, hd⟩ := Syntax.takes_definition t.text hannounced n rest _ _ hread
    refine ⟨_, _, left, ?_, .cons hd hds, ?_, hnone, hblocks⟩
    · rw [List.map_cons, hvs, hleft, List.cons_append, List.cons_append, List.append_assoc]
      rfl
    · rw [List.foldlM_cons, hadd]
      exact hfold

end Registry

end FlowTypes
