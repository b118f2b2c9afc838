import SchemaSql.Proofs.Repeats.Rules
import SchemaSql.Proofs.Rereading.Columns

/-! # Echoes of indexes and constraints -/

namespace SchemaSql

open Cursor SchemaSql.Parser

variable {ctx : Context} {T T' P Q : List Token} {n : Nat}

variable [hd : Fact (ctx.dialect ∈ Dialect.builtin)]

/-! ## Indexes -/

/-- A direction is printed if it was read. -/
theorem Direction.parse_echoes : Echoes ctx parse (fun o P => Trails ctx (trailer o) P)
    (fun _ => Shadows (n + 1)) (Shadows (n + 1)) :=
  .keyword_test (k := .asc) (N := [.space, .ofKeyword .asc]) rfl
    (.pure (Prints.keyword .asc).trails fun _ _ h => h.mono (by omega)) <|
  .keyword_test (k := .desc) (N := [.space, .ofKeyword .desc]) rfl
    (.pure (Prints.keyword .desc).trails fun _ _ h => h.mono (by omega)) <|
  .pure .nil fun _ _ h => h

theorem IndexKeyword.parse_echoes : Echoes ctx parse
    (fun o P => Trails ctx (o.elim "" fun k => " " ++ k.text) P) (fun _ => Shadows (n + 1))
    (Shadows (n + 1)) :=
  .keyword_test (k := .index) (N := [.space, .ofKeyword .index]) rfl
    (.pure (Prints.keyword .index).trails fun _ _ h => h.mono (by omega)) <|
  .keyword_test (k := .key) (N := [.space, .ofKeyword .key]) rfl
    (.pure (Prints.keyword .key).trails fun _ _ h => h.mono (by omega)) <|
  .pure .nil fun _ _ h => h

/-- A state may take two words, the first of which may be `NOT`. -/
theorem ConstraintState.parse_echoes : Echoes ctx parse
    (fun o P => o.elim (P = []) fun state => Trails ctx (" " ++ state.text) P)
    (fun _ => Shadows 3) (Shadows 3) := by
  have hstate : ∀ {m} {state : ConstraintState} {N : List Token}, m ≤ 3 →
      Prints ctx state.text N → Echoes ctx (return some state)
        (fun o P => o.elim (.space :: N ++ P = []) fun state =>
          Trails ctx (" " ++ state.text) (.space :: N ++ P))
        (fun _ => Shadows 3) (Shadows m) := fun hm hN =>
    .pure (by simpa using hN.trails) fun _ _ h => h.mono hm
  have hword : ∀ k : Keyword, Prints ctx k.name [.ofKeyword k] := .keyword
  refine .keyword_test (k := .deferrable) (N := [.space, .ofKeyword .deferrable]) rfl
      (hstate (by omega) (hword .deferrable)) <|
    .keywords_test (n := 1)
      (N := [.space, .ofKeyword .not, .space, .ofKeyword .deferrable]) rfl
      (hstate (by omega) ((hword .not).leads.append (hword .deferrable))) <|
    .keywords_test (n := 1)
      (N := [.space, .ofKeyword .initially, .space, .ofKeyword .deferred]) rfl
      (hstate (by omega) ((hword .initially).leads.append (hword .deferred))) <|
    .keywords_test (n := 1)
      (N := [.space, .ofKeyword .initially, .space, .ofKeyword .immediate]) rfl
      (hstate (by omega) ((hword .initially).leads.append (hword .immediate))) <|
    .keyword_test (k := .enable) (N := [.space, .ofKeyword .enable]) rfl
      (hstate (by omega) (hword .enable)) <|
    .keyword_test (k := .disable) (N := [.space, .ofKeyword .disable]) rfl
      (hstate (by omega) (hword .disable)) <|
    .keyword_test (k := .validate) (N := [.space, .ofKeyword .validate]) rfl
      (hstate (by omega) (hword .validate)) <|
    .keyword_test (k := .novalidate) (N := [.space, .ofKeyword .novalidate]) rfl
      (hstate (by omega) (hword .novalidate)) <|
    .pure rfl fun _ _ h => h

/-- States are printed one behind the other, and the list ends where none starts. -/
theorem ConstraintState.many_echoes : Echoes ctx (many parse)
    (fun states P => Trails ctx (Text.Chunks.text (states.map fun state => " " ++ state.text)) P)
    (fun _ => Shadows 3) (Shadows 3) :=
  (Echoes.many_alike parse_offers parse_echoes).print fun _ _ ⟨_, hparts, hP⟩ =>
    hP ▸ .flatten hparts

/-- An equals sign is printed if it was there. -/
theorem Parser.acceptEquals_echoes : Echoes ctx acceptEquals
    (fun equals P => Trails ctx (equalsText equals) P) (fun _ => Shadows (n + 1))
    (Shadows (n + 1)) := by
  refine (Echoes.accept (n := n) (s := .eq) (N := [.space, .eq]) trivial rfl).mono
    (fun equals P hP => ?_) (fun equals T T' h => ?_) fun _ _ h => h
  · subst hP
    cases equals with
    | false => exact .nil
    | true => exact Prints.trails (s := "=") ⟨rfl, fun Q hQ => by simp [hQ]⟩
  · cases equals with
    | false => exact h
    | true => trivial

/-- A number without the letter behind its digits. -/
def shortened : Token → Token
  | .number digits _ => .number digits false
  | t => t

namespace Index

/-- A column of an index may have a length in parentheses and a direction. -/
theorem parseColumn_echoes : Echoes ctx parseColumn (fun column P => Prints ctx column.text P)
    (fun _ => Shadows (n + 1)) (Shadows (n + 2)) := by
  refine Ident.parse_echoes.bind fun name P hname => ?_
  have hdirection : ∀ (length : Option String) (P' : List Token),
      Trails ctx (length.elim "" fun digits => "(" ++ digits ++ ")") P' →
      Echoes ctx (do return { name, length, direction := ← Direction.parse } : Parser IndexColumn)
        (fun column P'' => Prints ctx column.text (P ++ (P' ++ P''))) (fun _ => Shadows (n + 1))
        (Shadows (n + 1)) := fun length P' hlength =>
    Direction.parse_echoes.bind fun direction P'' hdirection => .pure (by
      refine (hname.append (hlength.append hdirection)).of_eq ?_ (by simp)
      cases length <;> simp [IndexColumn.text, String.append_assoc]) fun _ _ h => h
  refine .accept_test (s := .lparen) (N := [.lparen]) trivial rfl ?_
    (.bind (.pure (F := fun length P' => Trails ctx
      (length.elim "" fun digits => "(" ++ digits ++ ")") P') .nil fun _ _ h => h) hdirection)
  refine .next (fun t => [shortened t]) (fun l hl => ?_) (.expected _ _)
  obtain ⟨t, loc⟩ := l
  cases t with
  | number digits long =>
      refine .inr ⟨.number digits false, rfl, ?_, .after
        ((Echoes.expect (s := .rparen) (N := [.rparen]) trivial rfl).front fun _ _ _ => trivial)
        (.bind (.pure (F := fun length P' => length = some digits ∧ P' = [])
          (R := fun _ => Shadows (n + 1)) ⟨rfl, rfl⟩ fun _ _ _ => trivial) ?_)⟩
      · rintro ⟨_, loc'⟩ rfl d v d' h
        exact h
      · rintro _ _ ⟨rfl, rfl⟩
        have hdigits : Prints ctx digits [.number digits false] :=
          ⟨by simp [Token.text], fun Q hQ => (hl.short digits long rfl).legible_cons hQ⟩
        exact hdirection (some digits) _ hdigits.enclosed
  | _ => exact .inl (Fails.bind (.expected _ _) _)

/-- What a specification looks at: `KEY_BLOCK_SIZE` may gain an equals sign. -/
def SpecAlike : TokenRel := fun T T' =>
  Shadows 1 T T' ∧ ((frontOf T).keyword? = some .with → Shadows 2 T T')

omit hd in
/-- One keyword of the text and of the print look alike, unless more has to be seen behind it. -/
theorem SpecAlike.of_keyword {k : Keyword} {t : Token}
    (ht : t.Lucid ctx.dialect ctx.options.unescape) (hk : t.keyword? = some k) (hne : k ≠ .with) :
    SpecAlike (t :: T) (.ofKeyword k :: T') :=
  ⟨.cons (ht.role_keyword hk) shadows_zero, fun h =>
    absurd (Option.some.inj (hk.symm.trans h)) hne⟩

/-- A keyword that is ahead in the print was ahead in the text. -/
theorem SpecAlike.keyword {k : Keyword} (h : SpecAlike T T') :
    (frontOf T').keyword? = some k → (frontOf T).keyword? = some k :=
  Echoes.keyword_of_shadows h.1

theorem SpecAlike.dropWords_none (h : SpecAlike T T')
    (hnone : dropWords [.with, .parser] T = none) : dropWords [.with, .parser] T' = none := by
  by_cases hwith : (frontOf T).keyword? = some .with
  · exact Echoes.dropWords_none (h.2 hwith) hnone
  · cases T' with
    | nil => rfl
    | cons t T' => exact if_neg fun ht => hwith (h.keyword ht)

/-- An entry of an index is printed with its word; an equals sign may be added in front of a number.
    -/
theorem parseSpec_echoes : Echoes ctx parseSpec
    (fun o P => o.elim (P = []) fun spec => Trails ctx (" " ++ spec) P) (fun _ => SpecAlike)
    SpecAlike := by
  -- words with a name behind them, or words alone
  have hname : ∀ {words : String} {N : List Token}, Prints ctx words N →
      Echoes ctx (do return some (words ++ " " ++ (← Ident.parse false).text))
        (fun o P => o.elim (.space :: (N ++ [.space]) ++ P = []) fun spec =>
          Trails ctx (" " ++ spec) (.space :: (N ++ [.space]) ++ P))
        (fun _ => SpecAlike) Anything := fun hN =>
    (Ident.parse_echoes.front fun _ _ _ => trivial).bind fun name P hP =>
      .pure ((hN.leads.append hP).trails.of_eq (by simp) (by simp)) fun _ _ _ => shadows_zero
  have hword : ∀ {word : String} {N : List Token}, Prints ctx word N →
      Echoes ctx (return some word) (fun o P => o.elim (.space :: N ++ P = []) fun spec =>
        Trails ctx (" " ++ spec) (.space :: N ++ P)) (fun _ => SpecAlike) Anything := fun hN =>
    .pure (by simpa using hN.trails) fun _ _ _ => trivial
  have htaken : ∀ k : Keyword, k ≠ .with → ∀ t T T',
      t.Lucid ctx.dialect ctx.options.unescape → t.keyword? = some k → Anything T T' →
      SpecAlike (t :: T) (.ofKeyword k :: T') := fun k hk t T T' ht htk _ => .of_keyword ht htk hk
  refine .keyword_test_of (k := .using) (N := [.space, .ofKeyword .using, .space]) rfl
      (htaken _ nofun) (fun _ _ => SpecAlike.keyword) (hname (.keyword .using)) <|
    .keyword_test_of (k := .keyBlockSize) (N := [.space, .ofKeyword .keyBlockSize, .space]) rfl
      (htaken _ nofun) (fun _ _ => SpecAlike.keyword) ?_ <|
    .keywords_test_of (N := [.space, .ofKeyword .with, .space, .ofKeyword .parser, .space]) rfl
      ?_ (fun _ _ => SpecAlike.dropWords_none)
      (hname ((Prints.keyword .with).leads.append (.keyword .parser))) <|
    .keyword_test_of (k := .comment) (N := [.space, .ofKeyword .comment, .space]) rfl
      (htaken _ nofun) (fun _ _ => SpecAlike.keyword) ?_ <|
    .keyword_test_of (k := .visible) (N := [.space, .ofKeyword .visible]) rfl (htaken _ nofun)
      (fun _ _ => SpecAlike.keyword) (hword (.keyword .visible)) <|
    .keyword_test_of (k := .invisible) (N := [.space, .ofKeyword .invisible]) rfl (htaken _ nofun)
      (fun _ _ => SpecAlike.keyword) (hword (.keyword .invisible)) <|
    .pure rfl fun _ _ h => h
  · refine .added (accept_looks .eq) rfl (N := [.eq, .space]) rfl (by simp +contextual)
      (S := Shadows 0) ?_
    refine Literal.parseCount_echoes.bind fun count P hP => .pure ?_ fun _ _ _ => trivial
    have hequals : Leads ctx "= " [.eq, .space] := (Prints.sign (t := .eq) trivial).leads
    have hlead : Leads ctx "KEY_BLOCK_SIZE " [.ofKeyword .keyBlockSize, .space] :=
      (Prints.keyword .keyBlockSize).leads
    exact (hlead.append (hequals.append hP.2)).trails.of_eq
      (by simp; rfl) (by simp)
  · exact fun T M T' hT hdrop _ =>
      have hshadows := Echoes.shadows_dropWords hT hdrop (shadows_zero : Shadows 0 _ T')
      ⟨hshadows.mono (by simp), fun _ => hshadows⟩
  · refine .bind (Literal.parseString_echoes.front (S := Shadows 0) fun _ _ _ => trivial)
      fun value P hP => .pure ?_ fun _ _ _ => trivial
    have hlead : Leads ctx "COMMENT " [.ofKeyword .comment, .space] :=
      (Prints.keyword .comment).leads
    exact (hlead.append hP).trails.of_eq rfl (by simp)

/-- The words of an index are printed in the order in which they are read. -/
theorem parseHead_echoes : Echoes ctx parseHead
    (fun found P => Prints ctx (head { kind := found.1, keyword := found.2 }) P)
    (fun _ => Shadows (n + 1)) (Shadows (n + 2)) := by
  refine (Echoes.expectOneOf (n := n + 1) (W := fun k => [.ofKeyword k]) fun _ _ => rfl).bind
    fun k P ⟨hP, hk⟩ => ?_
  subst hP
  have hkeyword : ∀ (kind : IndexKind) (k : Keyword),
      (∀ keyword, head { kind, keyword } = k.name ++ keyword.elim "" fun k => " " ++ k.text) →
      Echoes ctx (do return (kind, ← IndexKeyword.parse))
        (fun found P => Prints ctx (head { kind := found.1, keyword := found.2 })
          ([.ofKeyword k] ++ P))
        (fun _ => Shadows (n + 1)) (Shadows (n + 1)) := fun kind k htext =>
    IndexKeyword.parse_echoes.bind fun keyword P hP =>
      .pure (((Prints.keyword k).append hP).of_eq (htext keyword).symm (by simp)) fun _ _ h => h
  simp only [List.mem_cons, List.not_mem_nil, or_false] at hk
  rcases hk with rfl | rfl | rfl | rfl | rfl | rfl
  · exact .keyword_behind (N := [.space, .ofKeyword .key]) rfl <|
      .pure ((Prints.keyword .primary).leads.append (.keyword .key)) fun _ _ h => h.mono (by omega)
  · exact hkeyword .unique .unique fun keyword => by cases keyword <;> rfl
  · exact .pure (.keyword .index) fun _ _ h => h
  · exact .pure (.keyword .key) fun _ _ h => h
  · exact hkeyword .fulltext .fulltext fun keyword => by cases keyword <;> rfl
  · exact hkeyword .spatial .spatial fun keyword => by cases keyword <;> rfl

theorem text_eq (index : Index) : index.text =
    head { kind := index.kind, keyword := index.keyword } ++
      ((index.name.elim "" fun name => " " ++ name.text) ++
        ((index.method.elim "" fun method => " USING " ++ method.text) ++
          (index.columnsText ++ (Text.Chunks.text (index.specs.map (" " ++ ·)) ++
            Text.Chunks.text (index.states.map fun state => " " ++ state.text))))) := by
  cases hname : index.name <;> cases hmethod : index.method <;>
    simp [text, chunks, hname, hmethod, String.append_assoc, head]

/-- Columns stand directly behind the name, or behind a space. -/
theorem parseColumns_echoes (abuts : Bool) : Echoes ctx (parenthesizedList parseColumn)
    (fun columns P => columns ≠ [] ∧ Trails ctx ((if abuts then "" else " ") ++ "("
      ++ Text.commaSeparated (columns.map IndexColumn.text) ++ ")") P)
    (fun _ => Anything) (Shadows n) := by
  refine ((Echoes.parenthesizedList (S := Shadows 2) parseColumn_echoes parseColumn_local
    (fun _ _ _ h => BehindItem.shadows h) fun _ _ h => h.mono (by omega)).pad
      (fun _ => if abuts then [] else [.space]) fun columns t ht => ?_).print ?_
  · cases abuts <;> simp_all
  · rintro columns _ ⟨_, rfl, parts, hparts, hne, rfl⟩
    refine ⟨hne, ?_⟩
    have hlist := (Prints.listing hparts).enclosed
    cases abuts with
    | true => exact hlist.of_eq (by simp) (by simp)
    | false => exact hlist.trails.of_eq (by simp [String.append_assoc]; rfl) (by simp)

/-- The entries of an index end where no word of one is ahead. -/
theorem specs_echoes : Echoes ctx (many parseSpec)
    (fun specs P => Trails ctx (Text.Chunks.text (specs.map (" " ++ ·))) P) (fun _ => Shadows 3)
    Anything :=
  (Echoes.many_alike parseSpec_offers parseSpec_echoes).mono
    (fun _ _ ⟨_, hparts, hP⟩ => hP ▸ .flatten hparts)
    (fun _ _ _ h => ⟨h.mono (by omega), fun _ => h.mono (by omega)⟩) fun _ _ _ => trivial

/-- An index has a head, perhaps a name, its columns and its entries. -/
theorem parse_echoes : Echoes ctx parse (fun index P => Prints ctx index.text P)
    (fun _ => Shadows 3) (Shadows (n + 3)) := by
  refine parseHead_echoes.bind ?_
  rintro ⟨kind, keyword⟩ P hhead
  -- the columns and what is behind them are read the same way whatever stands in front
  have hcolumns : ∀ {m} (name method : Option Ident) (P₁ P₂ : List Token),
      Trails ctx (name.elim "" fun name => " " ++ name.text) P₁ →
      Trails ctx (method.elim "" fun method => " USING " ++ method.text) P₂ →
      Echoes ctx (do
        let columns ← parenthesizedList parseColumn
        let specs ← many parseSpec
        let states ← many ConstraintState.parse
        return { kind, keyword, name, method, columns, specs, states } : Parser Index)
        (fun index P' => Prints ctx index.text (P ++ (P₁ ++ (P₂ ++ P')))) (fun _ => Shadows 3)
        (Shadows m) := by
    intro m name method P₁ P₂ hname hmethod
    refine (parseColumns_echoes (abutsColumns { kind, name })).bind fun columns P₃ hcolumns =>
      specs_echoes.bind fun specs P₄ hspecs =>
        ConstraintState.many_echoes.bind fun states P₅ hstates => .pure ?_ fun _ _ h => h
    have hlist : columnsText { kind, name, columns } =
        (if abutsColumns { kind, name } then "" else " ") ++ "("
          ++ Text.commaSeparated (columns.map IndexColumn.text) ++ ")" := by
      rw [columnsText, if_neg (by simpa using hcolumns.1)]
      rfl
    have htail := hcolumns.2.append (hspecs.append hstates)
    rw [text_eq]
    exact (hhead.append (hname.append (hmethod.append htail))).of_eq
      (by rw [← hlist]; rfl) (by simp)
  have hmethod : ∀ {m} (name : Option Ident) (P₁ : List Token),
      Trails ctx (name.elim "" fun name => " " ++ name.text) P₁ →
      Echoes ctx (do
        let method ← if ← acceptKeyword .using then some <$> Ident.parse false else pure none
        let columns ← parenthesizedList parseColumn
        let specs ← many parseSpec
        let states ← many ConstraintState.parse
        return { kind, keyword, name, method, columns, specs, states } : Parser Index)
        (fun index P' => Prints ctx index.text (P ++ (P₁ ++ P'))) (fun _ => Shadows 3)
        (Shadows (m + 1)) := by
    intro m name P₁ hname
    have husing : Echoes ctx (some <$> Ident.parse false)
        (fun o P' => Trails ctx (o.elim "" fun method => " USING " ++ method.text)
          ([.space, .ofKeyword .using, .space] ++ P')) (fun _ => Shadows m) (Shadows m) :=
      .map <| Ident.parse_echoes.mono (fun method P' hP' =>
        ((Prints.keyword .using).leads.append hP').trails.of_eq (by simp; rfl) (by simp))
        (fun _ _ _ h => h) fun _ _ h => h.mono (by omega)
    exact .keyword_test (k := .using) (N := [.space, .ofKeyword .using, .space]) rfl
      (husing.bind fun method P₂ hP₂ => (hcolumns name method P₁ _ hname hP₂).print
        fun index P' hP' => hP'.of_eq rfl (by simp))
      (.bind (.missing (g := fun method : Ident => " USING " ++ method.text))
        fun method P₂ => hcolumns name method P₁ P₂ hname)
  refine .peek (fun l l' hrole => ?_) (fun l => Echoes.bind .peekKeyword fun u _ hP => ?_)
    fun _ _ h => h.mono (by omega)
  · have hparen : (l.token = .lparen) = (l'.token = .lparen) :=
      propext (Token.eq_sign_of_role hrole trivial)
    simp only [hparen]
  · subst hP
    dsimp only
    exact .ite (fun _ => .bind (.missing (g := fun name : Ident => " " ++ name.text)) hmethod)
      fun _ => .bind (.optional Ident.parse_echoes) hmethod

end Index

/-! ## Foreign keys -/

namespace ForeignKey

/-- An action takes one word or two. -/
theorem parseAction_echoes : Echoes ctx parseAction (fun action P => Prints ctx action.text P)
    (fun _ => Shadows 3) (Shadows 3) := by
  have haction : ∀ {m} {action : ReferentialAction} {N : List Token}, m ≤ 3 →
      Prints ctx action.text N → Echoes ctx (return action)
        (fun action P => Prints ctx action.text (N ++ P)) (fun _ => Shadows 3) (Shadows m) :=
    fun hm hN => .pure (by simpa using hN) fun _ _ h => h.mono hm
  have hset : Leads ctx "SET " [.ofKeyword .set, .space] := (Prints.keyword .set).leads
  have hno : Leads ctx "NO " [.ofKeyword .no, .space] := (Prints.keyword .no).leads
  exact .keyword_test (k := .restrict) (N := [.ofKeyword .restrict]) rfl
      (haction (by omega) (.keyword .restrict)) <|
    .keyword_test (k := .cascade) (N := [.ofKeyword .cascade]) rfl
      (haction (by omega) (.keyword .cascade)) <|
    .keywords_test (n := 1) (N := [.ofKeyword .set, .space, .ofKeyword .null]) rfl
      (haction (by omega) (hset.append (.keyword .null))) <|
    .keywords_test (n := 1) (N := [.ofKeyword .no, .space, .ofKeyword .action]) rfl
      (haction (by omega) (hno.append (.keyword .action))) <|
    .keywords_test (n := 1) (N := [.ofKeyword .set, .space, .ofKeyword .default]) rfl
      (haction (by omega) (hset.append (.keyword .default))) <|
    .of_fails (Fails.expected_peek _)

omit hd in
/-- A rule for an event that has one is an error. -/
theorem behindEvent_fails {fk : ForeignKey} {start : Located} {event : ReferentialEvent}
    (hold : (fk.action? event).isSome = true) : Fails (behindEvent fk start event) := by
  rw [behindEvent, if_pos hold]
  exact Fails.bind (fun _ _ _ _ => throw_ne_ok) _

omit hd in
/-- Where a rule starts matters to errors alone. -/
theorem behindEvent_start {fk : ForeignKey} {event : ReferentialEvent} {d d' : Cursor}
    {v : Option ForeignKey} (start start' : Located)
    (h : behindEvent fk start event ctx d = .ok v d') :
    behindEvent fk start' event ctx d = .ok v d' := by
  by_cases hold : (fk.action? event).isSome = true
  · exact absurd h (behindEvent_fails hold ctx d v d')
  · rw [behindEvent, if_neg hold] at h ⊢
    exact h

/-- A rule is added to those in front of it. -/
theorem parseRule_echoes (fk : ForeignKey) : Echoes ctx (parseRule fk)
    (fun o P => o.elim (P = []) fun fk' => ∃ rule : ReferentialRule,
      fk' = { fk with rules := fk.rules ++ [rule] } ∧ Trails ctx (" " ++ rule.text) P)
    (fun _ => Shadows 3) (Shadows 3) := by
  -- behind the event the rule is new or the run has failed
  have hevent : ∀ (start : Located) (event : ReferentialEvent) {P : List Token},
      Leads ctx (event.text ++ " ") P → Echoes ctx (behindEvent fk start event)
        (fun o P' => o.elim (.space :: P ++ P' = []) fun fk' => ∃ rule : ReferentialRule,
          fk' = { fk with rules := fk.rules ++ [rule] } ∧
            Trails ctx (" " ++ rule.text) (.space :: P ++ P'))
        (fun _ => Shadows 3) (Shadows 1) := by
    intro start event P hP
    by_cases hold : (fk.action? event).isSome = true
    · exact .of_fails (behindEvent_fails hold)
    · rw [behindEvent, if_neg hold]
      refine (parseAction_echoes.front fun _ _ h => h.mono (by omega)).bind fun action P' haction =>
        .pure ⟨⟨event, action⟩, ?_, ?_⟩ fun _ _ h => h
      · rw [setAction, Keyed.upsert_new (mt isSome_action?.mpr hold)]
      · exact (hP.append haction).trails.of_eq (by simp [ReferentialRule.text]) (by simp)
  refine .keyword?_test (k := .on) (N := [.space, .ofKeyword .on, .space]) rfl ?_ ?_
    (.pure rfl fun _ _ h => h)
  -- the place of `ON` matters to the error for a repeated rule alone
  · intro start start' d v d' h
    obtain ⟨k, d1, hk, hrun⟩ := bind_ok.mp h
    refine bind_ok.mpr ⟨k, d1, hk, ?_⟩
    split at hrun <;> exact behindEvent_start start start' hrun
  · intro start
    refine (Echoes.expectOneOf (n := 1) (W := fun k => [.ofKeyword k, .space]) fun _ _ => rfl).bind
      fun k P hkeyword => ?_
    obtain ⟨rfl, hk⟩ := hkeyword
    have hon : Leads ctx "ON " [.ofKeyword .on, .space] := (Prints.keyword .on).leads
    simp only [List.mem_cons, List.not_mem_nil, or_false] at hk
    rcases hk with rfl | rfl
    · exact hevent start .update (hon.append_leads (Prints.keyword .update).leads)
    · exact hevent start .delete (hon.append_leads (Prints.keyword .delete).leads)

/-- The text of a foreign key from `KEY` up to its rules. -/
def stem (fk : ForeignKey) : String :=
  "KEY (" ++ Text.commaSeparated (fk.columns.map Ident.text) ++ ") REFERENCES "
    ++ fk.referredTable.text ++ fk.referredColumnsText
    ++ Text.Chunks.text (fk.rules.map fun rule => " " ++ rule.text)

/-- The text of a foreign key from `KEY` on. -/
def tail (fk : ForeignKey) : String :=
  fk.stem ++ Text.Chunks.text (fk.states.map fun state => " " ++ state.text)

omit hd in
/-- A foreign key is printed with its name in front of the word `FOREIGN`. -/
theorem text_eq (fk : ForeignKey) : Text.Chunks.text fk.chunks =
    (fk.name.elim "" fun name => "CONSTRAINT " ++ name.text ++ " ") ++ ("FOREIGN " ++ fk.tail) := by
  cases h : fk.name <;> simp [chunks, tail, stem, h, String.append_assoc] <;> rfl

/-- Rules for different events are printed one after the other. -/
theorem rules_echoes {fk : ForeignKey} (hP : Prints ctx fk.stem P) :
    Echoes ctx (iterate parseRule fk)
      (fun fk' P' => fk'.name = fk.name ∧ Prints ctx fk'.stem (P ++ P')) (fun _ => Shadows 3)
      (Shadows 3) := by
  refine .iterate (J := fun fk' P' => fk'.name = fk.name ∧ Prints ctx fk'.stem P')
    (shortens_of (parseRule_offers (R := Follow StatementEnd))) (fun fk' P' ⟨hname, hP'⟩ => ?_)
    ⟨rfl, hP⟩
  refine (parseRule_echoes fk').mono (fun o P'' h => ?_) (fun o _ _ h => by cases o <;> exact h)
    fun _ _ h => h
  cases o with
  | none => exact h
  | some fk'' =>
      obtain ⟨rule, rfl, hrule⟩ := h
      refine ⟨hname, (hP'.append hrule).of_eq ?_ rfl⟩
      simp [stem, referredColumnsText, String.append_assoc]

/-- A foreign key is printed from its columns to its states, in the order of the readers. -/
theorem parse_echoes (name : Option Ident) : Echoes ctx (parse name)
    (fun fk P => fk.name = name ∧ Prints ctx fk.tail P) (fun _ => Shadows 3)
    (Shadows (n + 1)) := by
  -- rules and states are printed behind the columns and the table, whatever those are
  have hrest : ∀ (columns : List Ident) (table : ObjectName) (referredColumns : List Ident)
      (P₁ : List Token), Prints ctx (stem
        { name, columns, referredTable := table, referredColumns }) P₁ →
      Echoes ctx (do
        let fk ← iterate parseRule { name, columns, referredTable := table, referredColumns }
        return { fk with states := ← many ConstraintState.parse } : Parser ForeignKey)
        (fun fk P => fk.name = name ∧ Prints ctx fk.tail (P₁ ++ P)) (fun _ => Shadows 3)
        (Shadows 3) := fun columns table referredColumns P₁ hP₁ =>
    (rules_echoes hP₁).bind fun fk P₂ ⟨hname, hfk⟩ =>
      ConstraintState.many_echoes.bind fun states P₃ hstates =>
        .pure ⟨hname, (hfk.append hstates).of_eq rfl (by simp)⟩ fun _ _ h => h
  refine .keyword_behind (k := .key) (N := [.ofKeyword .key, .space]) rfl <|
    Ident.parseList_echoes.bind fun columns P₁ ⟨hne, hcolumns⟩ => Echoes.front (S := Shadows 5)
      (.keyword_behind (k := .references) (N := [.space, .ofKeyword .references, .space]) rfl <|
        ObjectName.parse_echoes.bind fun table P₂ htable => ?_) fun _ _ _ => trivial
  have hopen : Leads ctx "KEY " [.ofKeyword .key, .space] := (Prints.keyword .key).leads
  have hreferences : Trails ctx (" REFERENCES " ++ table.text)
      (.space :: .ofKeyword .references :: .space :: P₂) :=
    ((Prints.keyword .references).leads.append htable).trails.of_eq rfl (by simp)
  -- the print up to the rules depends on whether columns are referred to
  have hstem : ∀ (referredColumns : List Ident) (P₃ : List Token), Trails ctx
      (referredColumnsText { name, columns, referredTable := table, referredColumns }) P₃ →
      Prints ctx (stem { name, columns, referredTable := table, referredColumns })
        ([.ofKeyword .key, .space] ++ (P₁ ++ (.space :: .ofKeyword .references :: .space :: P₂
          ++ P₃))) := fun referredColumns P₃ hP₃ =>
    (hopen.append (hcolumns.append (hreferences.append hP₃)).toPrints).of_eq
      (by simp [stem, String.append_assoc]; rfl) (by simp)
  refine .peek (fun l l' hrole => ?_) (fun l => ?_) fun _ _ h => h.mono (by omega)
  -- that is decided by a parenthesis, which the print has where the text had one
  · have hparen : (l.token = .lparen) = (l'.token = .lparen) :=
      propext (Token.eq_sign_of_role hrole trivial)
    simp only [hparen]
  · have hreferred : Echoes ctx Ident.parseList (fun referredColumns P₃ => Trails ctx
        (referredColumnsText { name, columns, referredTable := table, referredColumns }) P₃)
        (fun _ => Anything) (Shadows 3) := by
      refine (Ident.parseList_echoes.pad (fun _ => if name.isSome then [] else [.space])
        fun _ t ht => ?_).print ?_
      · cases name <;> simp_all
      · rintro referredColumns _ ⟨P₃, rfl, hne, hP₃⟩
        rw [referredColumnsText, if_neg (by simpa using hne)]
        cases name with
        | some name => exact hP₃.of_eq (by simp) (by simp)
        | none => exact hP₃.trails.of_eq (by simp [String.append_assoc]; rfl) (by simp)
    dsimp only
    refine .ite (fun _ => hreferred.bind fun referredColumns P₃ hP₃ => ?_) fun _ =>
      .bind (.pure (F := fun referredColumns P₃ => referredColumns = [] ∧ P₃ = [])
        (R := fun _ => Shadows 3) ⟨rfl, rfl⟩ fun _ _ h => h) ?_
    · exact ((hrest columns table referredColumns _ (hstem _ _ hP₃)).print fun fk P h =>
        ⟨h.1, h.2.of_eq rfl (by simp)⟩).front fun _ _ _ => trivial
    · rintro _ _ ⟨rfl, rfl⟩
      exact (hrest columns table [] _ (hstem [] [] .nil)).print fun fk P h =>
        ⟨h.1, h.2.of_eq rfl (by simp)⟩

end ForeignKey

/-! ## Constraints

    `CONSTRAINT` without a name is not printed in front of a foreign key or a check, which are
    then read as if it had never been there. -/

namespace TableConstraint

/-- What is read behind a name, with `index` for the index that it may be the name of. -/
def parseBehind (name : Option Ident) (index : Index → TableConstraint) :
    Parser TableConstraint := do
  if ← acceptKeyword .foreign then return .foreignKey (← ForeignKey.parse name)
  if ← acceptKeyword .check then return .check name (← parseCondition)
  return index (← Index.parse)

/-- Behind a name there is a foreign key, a condition or an index, told by the first word. -/
theorem parseBehind_echoes {name : Option Ident} {index : Index → TableConstraint} {lead : String}
    (hP : Leads ctx lead P)
    (hlead : lead = name.elim "" fun name => "CONSTRAINT " ++ name.text ++ " ")
    (hindex : ∀ i, (index i).text = lead ++ i.text ∧ (index i).contents = []) :
    Echoes ctx (parseBehind name index)
      (fun constraint P' => Written ctx constraint.contents constraint.text (P ++ P'))
      (fun _ => Shadows 3) (Shadows 3) := by
  refine .keyword_test (k := .foreign) (N := [.ofKeyword .foreign, .space]) rfl ?_ <|
    .keyword_test (k := .check) (N := [.ofKeyword .check, .space]) rfl ?_ ?_
  -- one case for each word: `FOREIGN`, `CHECK`, or the words of an index
  · refine (ForeignKey.parse_echoes (n := 1) name).bind fun fk P' hkey =>
      .pure (fun _ => ?_) fun _ _ h => h
    obtain ⟨hname, hfk⟩ := hkey
    have hforeign : Leads ctx "FOREIGN " [.ofKeyword .foreign, .space] :=
      (Prints.keyword .foreign).leads
    refine (hP.append (hforeign.append hfk)).of_eq ?_ (by simp)
    rw [text, chunks, ForeignKey.text_eq, hlead, hname]
  · refine Expr.enclosed_echoes.bind fun e P' henclosed =>
      .pure (fun hsingle => ?_) fun _ _ _ => trivial
    obtain ⟨P'', hP', he⟩ := henclosed
    have hcheck : Leads ctx "CHECK " [.ofKeyword .check, .space] := (Prints.keyword .check).leads
    refine (hP.append (hcheck.append (he hsingle).enclosed.toPrints)).of_eq ?_ (by simp [hP'])
    subst hlead
    cases name <;> simp [text, chunks, Expr.text, String.append_assoc] <;> rfl
  · refine (Index.parse_echoes (n := 0)).bind fun i P' hi => .pure (fun _ => ?_) fun _ _ h => h
    exact (hP.append hi).of_eq (hindex i).1.symm (by simp)

theorem parseUnnamed_echoes : Echoes ctx (parseBehind none .index)
    (fun constraint P => Written ctx constraint.contents constraint.text P) (fun _ => Shadows 3)
    (Shadows 3) :=
  parseBehind_echoes .nil rfl fun i => ⟨by simp [text, chunks, Index.text], rfl⟩

/-- Whether a token starts a constraint that loses the word `CONSTRAINT` in front of it. -/
def losesWord (t : Token) : Bool := t.bareKeyword?.any (· ∈ [.foreign, .check])

/-- What is read where the word `CONSTRAINT` is printed if it was there. -/
def parseKept : Parser TableConstraint := do
  if ← acceptKeyword .constraint then
    let found ← peek
    if losesWord found.token then expected "a name" .eof
    if startsUnnamed found.token then return .named none (← Index.parse)
    let name ← some <$> Ident.parse false
    parseBehind name (.named name)
  else parseBehind none .index

/-- Where the word `CONSTRAINT` is printed it was read, with or without a name behind it. -/
theorem parseKept_echoes : Echoes ctx parseKept
    (fun constraint P => Written ctx constraint.contents constraint.text P) (fun _ => Shadows 3)
    (Shadows 3) := by
  have hlead : Leads ctx "CONSTRAINT " [.ofKeyword .constraint, .space] :=
    (Prints.keyword .constraint).leads
  refine .keyword_test (k := .constraint) (N := [.ofKeyword .constraint, .space]) rfl ?_ ?_
  · refine .peek (fun l l' hrole => ?_) (fun l => .ite (fun _ => .of_fails ?_) fun _ =>
      .ite (fun _ => ?_) fun _ => ?_) fun _ _ h => h.mono (by omega)
    -- what is decided on is seen alike in both runs
    · have hloses : losesWord l.token = losesWord l'.token := by
        simp only [losesWord, Token.bareKeyword?_of_role hrole]
      have hstarts : startsUnnamed l.token = startsUnnamed l'.token := by
        simp only [startsUnnamed, Token.bareKeyword?_of_role hrole]
      rw [hloses, hstarts]
    · exact Fails.bind (.expected _ _) _
    · refine .bind ((Index.parse_echoes (n := 0)).front fun _ _ h => h.mono (by omega))
        fun i P hi => .pure (fun _ => ?_) fun _ _ h => h
      exact (hlead.append hi).of_eq (by simp [text, chunks, Index.text]) (by simp)
    -- a name stands behind the word, and then any constraint
    · refine Echoes.bind (F := fun o P => ∃ name, o = some name ∧ Prints ctx name.text P)
        (R := fun _ => Shadows 1)
        (.map (Ident.parse_echoes.print fun name P hname => ⟨name, rfl, hname⟩)) ?_
      rintro _ P ⟨name, rfl, hname⟩
      have hbehind := parseBehind_echoes (hlead.append_leads hname.leads)
        (show _ = (some name).elim "" _ by simp [String.append_assoc])
        fun i => (⟨by simp [text, chunks, Index.text, String.append_assoc], rfl⟩ :
          (named (some name) i).text = _ ∧ _)
      refine (hbehind.spaced.front fun _ _ h => h.mono (by omega)).print ?_
      rintro constraint P' ⟨P'', hP', h⟩ hsingle
      exact (h hsingle).of_eq rfl (by simp [hP'])
  · exact parseUnnamed_echoes

section

omit hd

variable {c c' : Cursor} {index : Index → TableConstraint} {name : Option Ident}

/-- A word that stands without quotes is accepted as its own keyword and no other. -/
theorem acceptKeyword_bare {k : Keyword} (hk : c.peek.token.bareKeyword? = some k)
    (k' : Keyword) : acceptKeyword k' ctx c =
      if k = k' then .ok true c.next.2 else .ok false c := by
  have hiff : hasKeyword (some k') c.peek = true ↔ k = k' := by
    rw [Denotes.hasKeyword_iff, Token.keyword?_of_bare hk, Option.some.injEq]
  rw [acceptKeyword, acceptWord_run]
  exact if_congr hiff rfl rfl

/-- Foreign keys and conditions without a name are printed without `CONSTRAINT`. -/
theorem losesWord_iff {t : Token} :
    losesWord t = true ↔ t.bareKeyword? = some .foreign ∨ t.bareKeyword? = some .check := by
  cases h : t.bareKeyword? <;> simp [losesWord, h]

/-- In front of a foreign key or a check it does not matter what an index would be. -/
theorem parseBehind_loses (index index' : Index → TableConstraint)
    (h : losesWord c.peek.token = true) :
    parseBehind name index ctx c = parseBehind name index' ctx c := by
  rcases losesWord_iff.mp h with hk | hk
  · have hforeign : acceptKeyword .foreign ctx c = .ok true c.next.2 := acceptKeyword_bare hk _
    rw [parseBehind, parseBehind, bind_run hforeign, bind_run hforeign]
    rfl
  · have hforeign : acceptKeyword .foreign ctx c = .ok false c := acceptKeyword_bare hk _
    have hcheck : acceptKeyword .check ctx c = .ok true c.next.2 := acceptKeyword_bare hk _
    rw [parseBehind, parseBehind, bind_run hforeign, bind_run hforeign]
    refine (bind_run hcheck _).trans (Eq.trans ?_ (bind_run hcheck _).symm)
    rfl

/-- In front of any other keyword there is an index. -/
theorem parseBehind_index {k : Keyword} (hk : c.peek.token.bareKeyword? = some k)
    (h : losesWord c.peek.token = false) :
    parseBehind name index ctx c = (do return index (← Index.parse) : Parser _) ctx c := by
  have hne : k ≠ .foreign ∧ k ≠ .check := by
    refine ⟨?_, ?_⟩ <;> rintro rfl <;> simp [losesWord, hk] at h
  have hforeign : acceptKeyword .foreign ctx c = _ := acceptKeyword_bare hk .foreign
  have hcheck : acceptKeyword .check ctx c = _ := acceptKeyword_bare hk .check
  rw [if_neg hne.1] at hforeign
  rw [if_neg hne.2] at hcheck
  rw [parseBehind, bind_run hforeign]
  exact bind_run hcheck _

/-- Either the words of a constraint are printed as they were read, or `CONSTRAINT` stood in
    front of one that is printed without it. -/
theorem parse_run {v : TableConstraint} :
    parse ctx c = .ok v c' ↔ parseKept ctx c = .ok v c' ∨
      ∃ c1, acceptKeyword .constraint ctx c = .ok true c1 ∧ losesWord c1.peek.token = true ∧
        parseBehind none .index ctx c1 = .ok v c' := by
  have hword := acceptWord_run (some .constraint) ctx c
  by_cases hconstraint : hasKeyword (some .constraint) c.peek = true
  · rw [if_pos hconstraint] at hword
    have haccept : acceptKeyword .constraint ctx c = .ok true c.next.2 := hword
    generalize c.next.2 = c1 at haccept
    -- both readers go on behind the word, and differ in front of a constraint that loses it
    have hparse : parse ctx c = (if startsUnnamed c1.peek.token
        then parseBehind none (.named none)
        else (some <$> Ident.parse false >>= fun name => parseBehind name (.named name) :
          Parser TableConstraint)) ctx c1 := by
      rw [parse, bind_run haccept]
      refine (bind_run (peek_ok.mpr ⟨rfl, rfl⟩) _).trans ?_
      cases startsUnnamed c1.peek.token <;> rfl
    have hkept : parseKept ctx c = (if losesWord c1.peek.token then expected "a name" .eof
        else if startsUnnamed c1.peek.token then (do return .named none (← Index.parse))
        else (some <$> Ident.parse false >>= fun name => parseBehind name (.named name) :
          Parser TableConstraint)) ctx c1 := by
      rw [parseKept, bind_run haccept]
      refine (bind_run (peek_ok.mpr ⟨rfl, rfl⟩) _).trans ?_
      cases losesWord c1.peek.token <;> cases startsUnnamed c1.peek.token <;> rfl
    rw [hparse, hkept]
    cases hloses : losesWord c1.peek.token with
    | true =>
        have hstarts : startsUnnamed c1.peek.token = true := by
          rcases losesWord_iff.mp hloses with hk | hk <;> simp [startsUnnamed, hk]
        rw [if_pos hstarts, if_pos rfl, parseBehind_loses (.named none) .index hloses]
        refine ⟨fun h => .inr ⟨c1, haccept, hloses, h⟩, ?_⟩
        rintro (h | ⟨c2, haccept', -, h⟩)
        · exact absurd h (Fails.expected _ _ _ _ _ _)
        · obtain ⟨-, rfl⟩ := EStateM.Result.ok.inj (haccept.symm.trans haccept')
          exact h
    | false =>
        -- the second way to read is for those constraints only
        have hnever : ∀ P : Prop, (P ∨ ∃ c2, acceptKeyword .constraint ctx c = .ok true c2 ∧
            losesWord c2.peek.token = true ∧ parseBehind none .index ctx c2 = .ok v c') ↔ P := by
          refine fun P => or_iff_left ?_
          rintro ⟨c2, haccept', hloses', -⟩
          obtain ⟨-, rfl⟩ := EStateM.Result.ok.inj (haccept.symm.trans haccept')
          simp [hloses] at hloses'
        rw [hnever]
        cases hstarts : startsUnnamed c1.peek.token with
        | true =>
            obtain ⟨k, hk⟩ : ∃ k, c1.peek.token.bareKeyword? = some k := by
              cases hk : c1.peek.token.bareKeyword? with
              | none => simp [startsUnnamed, hk] at hstarts
              | some k => exact ⟨k, rfl⟩
            simp only [Bool.false_eq_true, ↓reduceIte]
            rw [parseBehind_index hk hloses]
        | false => simp only [Bool.false_eq_true, ↓reduceIte]
  -- without the word both readers do the same
  · rw [if_neg hconstraint] at hword
    have haccept : acceptKeyword .constraint ctx c = .ok false c := hword
    have hparse : parse ctx c = parseBehind none .index ctx c := by
      rw [parse, bind_run haccept]
      rfl
    have hkept : parseKept ctx c = parseBehind none .index ctx c := by
      rw [parseKept, bind_run haccept]
      rfl
    rw [hparse, hkept]
    refine ⟨.inl, ?_⟩
    rintro (h | ⟨c1, haccept', -⟩)
    · exact h
    · cases haccept.symm.trans haccept'

end

theorem startsConstraint_role (t : Token) : startsConstraint t.role = startsConstraint t := by
  rw [startsConstraint, Token.bareKeyword?_role, startsConstraint]

/-- Where a constraint starts in the text, one starts in the print, and it is read there. -/
theorem parse_echoes : Echoes ctx parse
    (fun constraint P => Written ctx constraint.contents constraint.text P) (fun _ => Shadows 3)
    (fun T T' => startsConstraint (frontOf T) = true → startsConstraint (frontOf T') = true) := by
  intro c v c' hoverrun hsource hrun
  rcases parse_run.mp hrun with hkept | ⟨c1, haccept, hloses, hbehind⟩
  · obtain ⟨hoverrun', hrest, P, hP, hreplay⟩ := parseKept_echoes c v c' hoverrun hsource hkept
    refine ⟨hoverrun', hrest, P, hP, fun K hK => ?_⟩
    obtain ⟨hahead, hrun'⟩ := hreplay K hK
    refine ⟨fun h => ?_, fun d hd => ?_⟩
    · rwa [← startsConstraint_role, ← hahead.front, startsConstraint_role]
    · obtain ⟨d', hd', hfaces⟩ := hrun' d hd
      exact ⟨d', parse_run.mpr (.inl hd'), hfaces⟩
  -- the word is lost: the print is that of the constraint behind it
  · obtain ⟨hoverrun1, hrest1, -⟩ := Echoes.acceptKeyword (n := 0)
      (N := [.ofKeyword .constraint]) rfl c true c1 hoverrun hsource haccept
    obtain ⟨hoverrun', hrest, P, hP, hreplay⟩ :=
      parseUnnamed_echoes c1 v c' hoverrun1 (hsource.mono hrest1.isInfix) hbehind
    refine ⟨hoverrun', hrest.trans hrest1, P, hP, fun K hK => ?_⟩
    obtain ⟨hahead, hrun'⟩ := hreplay K hK
    have hfront : (frontOf (solid (P ++ K))).bareKeyword? = c1.peek.token.bareKeyword? := by
      rw [Token.bareKeyword?_of_role hahead.front.symm, frontOf_coming]
    refine ⟨fun _ => ?_, fun d hd => ?_⟩
    · rw [startsConstraint, hfront]
      rcases losesWord_iff.mp hloses with hk | hk <;> rw [hk] <;> rfl
    · obtain ⟨d', hd', hfaces⟩ := hrun' d hd
      refine ⟨d', ?_, hfaces⟩
      rw [← hd.coming, frontOf_coming] at hfront
      -- and it is read without finding the word
      have haccept' : acceptKeyword .constraint ctx d = .ok false d := by
        rcases losesWord_iff.mp hloses with hk | hk
        · exact acceptKeyword_bare (hfront.trans hk) .constraint
        · exact acceptKeyword_bare (hfront.trans hk) .constraint
      rw [parse, bind_run haccept']
      exact hd'

end TableConstraint

end SchemaSql
