import SchemaSql.Proofs.Rereading.Partitions

/-! # Echoes of clauses

    The first word of a clause tells what is read behind it, and the print of the clause starts
    with that word.  What is read behind it prints the rest of the clause (`Rest`), so that a
    reader which more than one word leads to is looked at once.

    `Starts` and `Ends` say what is the same in front of a clause and behind it.  A list of
    partitions goes on at a comma unless a clause starts behind it (`CommaAlike`). -/

namespace SchemaSql

open Cursor SchemaSql.Parser

/-- The second token that is read is the second one ahead. -/
theorem Cursor.coming_tail (c : Cursor) : frontOf c.coming.tail = (c.peekNth 1).token := by
  rw [peekNth_eq_rest, solidTokens_nthSolid, solidTokens_eq]
  show frontOf c.coming.tail = c.coming.getD 1 .eof
  cases c.coming with
  | nil => rfl
  | cons t T => cases T <;> rfl

variable {ctx : Context} {T T' U U' P Q : List Token} {s words : String} {n : Nat}
  {k : Keyword} {ks : List Keyword}

/-- Nothing stands behind. -/
def AtEnd : TokenRel := fun T T' => T = [] ∧ T' = []

namespace AlterClause

/-! ## In front of a clause and behind it -/

/-- A clause starts in both places, with the same word. -/
def Starts : TokenRel := fun T T' => Shadows 1 T T' ∧ startsClause (frontOf T) = true

/-- A clause ends in both places: there is a comma in front of a clause, or nothing. -/
def Ends : TokenRel := BehindItem false Starts AtEnd

/-- Where a clause ends in both places there is a comma or nothing. -/
theorem Ends.shadows (h : Ends T T') : Shadows n T T' := by
  cases h with
  | further => exact .sign rfl
  | last _ h =>
      obtain ⟨rfl, rfl⟩ := h
      exact .refl n []
  | comma h => cases h

theorem startsClause_role (t : Token) : startsClause t.role = startsClause t := by
  rw [startsClause, Token.bareKeyword?_role, startsClause]

/-- There is a comma, and no clause starts behind it. -/
def GoesOn (T : List Token) : Prop :=
  frontOf T = .comma ∧ startsClause (frontOf T.tail) = false

/-- What a list of partitions looks at. -/
def CommaAlike : TokenRel := fun T T' => Shadows 1 T T' ∧ (GoesOn T ↔ GoesOn T')

/-- Two commas look alike, and so must the words behind them. -/
theorem CommaAlike.of_comma (h : Shadows 1 U U') : CommaAlike (.comma :: U) (.comma :: U') := by
  refine ⟨.sign rfl, and_congr_right fun _ => ?_⟩
  show startsClause (frontOf U) = false ↔ startsClause (frontOf U') = false
  rw [← startsClause_role, h.front, startsClause_role]

/-- Without a comma a list of partitions does not go on. -/
theorem CommaAlike.of_shadows (h : Shadows 1 T T') (hcomma : frontOf T ≠ .comma) :
    CommaAlike T T' :=
  ⟨h, iff_of_false (fun hT => hcomma hT.1) fun hT' =>
    hcomma ((Token.eq_sign_of_role h.front (s := .comma) trivial).mpr hT'.1)⟩

/-- Where clauses end the comma, if there is one, stands in front of a clause. -/
theorem CommaAlike.of_ends (h : Ends T T') : CommaAlike T T' := by
  have hshadows : Shadows 1 T T' := h.shadows
  cases h with
  | further h => exact .of_comma h.1
  | last hcomma _ => exact .of_shadows hshadows hcomma
  | comma h => cases h

/-! ## What is printed behind the first words -/

/-- The tokens and blanks make up the text of the clause behind these words, unless a minus sign
    stands in front of another one in what it stores. -/
def Rest (ctx : Context) (words : String) (clause : AlterClause) (P : List Token) : Prop :=
  Throughout Expr.Single clause.contents → ∃ s, clause.text = words ++ s ∧ Trails ctx s P

namespace Rest

variable {clause : AlterClause}

/-- The text behind the words, and the tokens that make it up. -/
theorem of (h : Trails ctx s P) (htext : clause.text = words ++ s) (hP : P = Q) :
    Rest ctx words clause Q := fun _ => ⟨s, htext, hP ▸ h⟩

theorem of_eq {words' : String} (h : words = words') (hclause : Rest ctx words clause P) :
    Rest ctx words' clause P := h ▸ hclause

/-- The first words and the rest behind them make up the clause. -/
theorem written (hwords : Prints ctx words Q) (h : Rest ctx words clause P) :
    Written ctx clause.contents clause.text (Q ++ P) := by
  intro hsingle
  obtain ⟨s, htext, hs⟩ := h hsingle
  exact htext ▸ hwords.append hs

/-- Further words stand behind the first ones. -/
theorem behind (hs : Trails ctx s Q) (h : Rest ctx (words ++ s) clause P) :
    Rest ctx words clause (Q ++ P) := by
  intro hsingle
  obtain ⟨s', htext, hs'⟩ := h hsingle
  exact ⟨s ++ s', by rw [htext, String.append_assoc], hs.append hs'⟩

end Rest

/-- Keywords with a space in front of each. -/
def keywordsText (ks : List Keyword) : String := Text.Chunks.text (ks.map fun k => " " ++ k.name)

@[simp] theorem keywordsText_nil : keywordsText [] = "" := rfl

@[simp] theorem keywordsText_cons (k : Keyword) (ks : List Keyword) :
    keywordsText (k :: ks) = " " ++ (k.name ++ keywordsText ks) := by
  simp [keywordsText, String.append_assoc]

/-- The tokens of keywords with a space in front of each. -/
def keywordsTokens (ks : List Keyword) : List Token := afterSpaces (ks.map .ofKeyword)

/-- Without the spaces the keywords are left. -/
theorem solid_keywordsTokens (ks : List Keyword) :
    solid (keywordsTokens ks) = ks.map .ofKeyword := by
  induction ks with
  | nil => rfl
  | cons k ks ih => simpa [keywordsTokens] using ih

end AlterClause

variable [hd : Fact (ctx.dialect ∈ Dialect.builtin)]

/-! ## Parts of clauses -/

/-- The word is printed if it was there, and looked for behind everything else. -/
theorem DropBehavior.parse_echoes : Echoes ctx parse (fun o P => Trails ctx (trailer o) P)
    (fun _ => Shadows (n + 1)) (Shadows (n + 1)) :=
  .keyword_test (k := .cascade) (N := [.space, .ofKeyword .cascade]) rfl
    (.pure (Prints.keyword .cascade).trails fun _ _ h => h.mono (by omega)) <|
  .keyword_test (k := .restrict) (N := [.space, .ofKeyword .restrict]) rfl
    (.pure (Prints.keyword .restrict).trails fun _ _ h => h.mono (by omega)) <|
  .pure .nil fun _ _ h => h

/-- The equals sign in front of a collation is printed if it was read. -/
theorem CharacterSetCollation.parse_echoes : Echoes ctx parse
    (fun o P => Trails ctx (trailer o) P) (fun _ => Shadows (n + 1)) (Shadows (n + 1)) := by
  refine .keyword_test (k := .collate) (N := [.space, .ofKeyword .collate]) rfl ?_
    (.pure .nil fun _ _ h => h)
  have hequals : Echoes ctx acceptEquals (fun equals P => Trails ctx (equalsText equals) P)
      (fun _ => Shadows (n + 1)) (Shadows n) :=
    acceptEquals_echoes.front fun _ _ h => h.mono (by omega)
  refine hequals.bind fun equals P₁ hequals => Ident.parse_echoes.trailing.bind
    fun name P₂ hname => .pure ?_ fun _ _ h => h.mono (by omega)
  have hword : Trails ctx " COLLATE" [.space, .ofKeyword .collate] :=
    (Prints.keyword .collate).trails
  exact (hword.append (hequals.append hname)).of_eq
    (by simp [trailer, String.append_assoc]) (by simp)

namespace AlterClause

/-! ## Keywords behind the first words -/

/-- Keywords with a space in front of each can be printed behind anything. -/
theorem trails_keywords (ks : List Keyword) :
    Trails ctx (keywordsText ks) (keywordsTokens ks) := by
  induction ks with
  | nil => exact .nil
  | cons k ks ih =>
      exact ((Prints.keyword k).trails.append ih).of_eq (by simp [String.append_assoc]) rfl

section

variable {p q : Parser AlterClause} {R : AlterClause → TokenRel} {S : TokenRel}

omit hd in
/-- A clause behind a further part of its text. -/
theorem behind_part (hs : Trails ctx s Q) (h : Echoes ctx p (Rest ctx (words ++ s)) R S) :
    Echoes ctx p (fun clause P => Rest ctx words clause (Q ++ P)) R S :=
  h.print fun _ _ => .behind hs

/-- A clause behind a further keyword. -/
theorem keyword_behind (hq : Echoes ctx q (Rest ctx (words ++ keywordsText [k])) R (Shadows n)) :
    Echoes ctx (Parser.expectKeyword k >>= fun _ => q) (Rest ctx words) R (Shadows (n + 1)) :=
  .keyword_behind (solid_keywordsTokens [k]) (hq.print fun _ _ => .behind (trails_keywords _))

/-- A clause behind further keywords. -/
theorem keywords_behind (hq : Echoes ctx q (Rest ctx (words ++ keywordsText ks)) R (Shadows n)) :
    Echoes ctx (Parser.expectKeywords ks >>= fun _ => q) (Rest ctx words) R
      (Shadows (n + ks.length)) :=
  (Echoes.expectKeywords (solid_keywordsTokens ks)).bind fun _ _ hP =>
    hP ▸ hq.print fun _ _ => .behind (trails_keywords _)

/-- A clause that may have a further keyword. -/
theorem keyword_test (hp : Echoes ctx p (Rest ctx (words ++ keywordsText [k])) R (Shadows n))
    (hq : Echoes ctx q (Rest ctx words) R (Shadows (n + 1))) :
    Echoes ctx (Parser.acceptKeyword k >>= fun b => if b then p else q) (Rest ctx words) R
      (Shadows (n + 1)) :=
  .keyword_test (solid_keywordsTokens [k]) (hp.print fun _ _ => .behind (trails_keywords _)) hq

/-- A clause that may have further keywords. -/
theorem keywords_test (hp : Echoes ctx p (Rest ctx (words ++ keywordsText ks)) R (Shadows n))
    (hq : Echoes ctx q (Rest ctx words) R (Shadows (n + ks.length))) :
    Echoes ctx (Parser.acceptKeywords ks >>= fun b => if b then p else q) (Rest ctx words) R
      (Shadows (n + ks.length)) :=
  .keywords_test (solid_keywordsTokens ks)
    (hp.print fun _ _ => .behind (trails_keywords _)) hq

end

/-- A keyword that is printed if it was there. -/
theorem acceptKeyword_echoes (k : Keyword) : Echoes ctx (acceptKeyword k)
    (fun found P => Trails ctx (if found then keywordsText [k] else "") P)
    (fun _ => Shadows (n + 1)) (Shadows (n + 1)) := by
  refine (Echoes.acceptKeyword (solid_keywordsTokens [k])).mono (fun found P hP => ?_)
    (fun found _ _ h => ?_) fun _ _ h => h
  · subst hP
    cases found with
    | false => exact .nil
    | true => exact trails_keywords [k]
  · cases found with
    | false => exact h
    | true => exact h.mono (by omega)

/-- Keywords that are printed if they were there. -/
theorem acceptKeywords_echoes (ks : List Keyword) : Echoes ctx (acceptKeywords ks)
    (fun found P => Trails ctx (if found then keywordsText ks else "") P)
    (fun _ => Shadows (n + ks.length)) (Shadows (n + ks.length)) := by
  refine (Echoes.acceptKeywords (solid_keywordsTokens ks)).mono (fun found P hP => ?_)
    (fun found _ _ h => ?_) fun _ _ h => h
  · subst hP
    cases found with
    | false => exact .nil
    | true => exact trails_keywords ks
  · cases found with
    | false => exact h
    | true => exact h.mono (by omega)

/-! ## Lists of partitions -/

/-- Names of partitions are printed with a comma between them, and the list ends where the comma
    behind it stands in front of a clause. -/
theorem parsePartitions_echoes : Echoes ctx parsePartitions
    (fun partitions P => Prints ctx (Text.commaSeparated (partitions.map Ident.text)) P)
    (fun _ => CommaAlike) (Shadows 1) := by
  have hitem : Echoes ctx (do
      let cursor ← get
      if cursor.peek.token ≠ .comma || startsClause (cursor.peekNth 1).token then return none
      let _ ← next
      some <$> Ident.parse false)
      (fun o P => o.elim (P = []) fun name =>
        ∃ P', Prints ctx name.text P' ∧ P = .comma :: .space :: P')
      (fun _ => CommaAlike) CommaAlike := by
    -- the list goes on if a comma is ahead that does not start the next clause
    refine .split_of GoesOn (A := CommaAlike) (C := CommaAlike) (q := do
        let _ ← expect .comma
        some <$> Ident.parse false) (r := return none) (fun c hB => ?_) (fun c hB => ?_) ?_
      (.pure rfl fun _ _ h => h) (fun T T' hB h => ⟨h, h.2.mp hB⟩)
      fun T T' hB h => ⟨h, mt h.2.mpr hB⟩
    · rw [GoesOn, frontOf_coming, coming_tail] at hB
      rw [bind_run (get_ok.mpr ⟨rfl, rfl⟩), if_neg (by simp [hB]), next_bind_eq_expect, hB.1]
    · rw [GoesOn, frontOf_coming, coming_tail] at hB
      rw [bind_run (get_ok.mpr ⟨rfl, rfl⟩), if_pos (by simpa [imp_iff_not_or] using hB)]
    · exact .after (.expect_of (s := .comma) (N := [.comma, .space]) trivial rfl
        (fun _ _ => .of_comma) fun _ _ h => h.1) (.map (Ident.parse_echoes.mono
          (fun name P hname => ⟨P, hname, rfl⟩) (fun _ _ _ _ => shadows_zero) fun _ _ h => h))
  have hfirst : Echoes ctx (Ident.parse false) (fun name P => Prints ctx name.text P)
      (fun _ => CommaAlike) (Shadows 1) :=
    Ident.parse_echoes.behind fun _ _ _ _ => shadows_zero
  refine hfirst.bind fun first P hfirst => (Echoes.many_alike partition_offers hitem).bind
    fun rest P' ⟨parts, hparts, hP'⟩ => .pure ?_ fun _ _ h => h
  obtain ⟨parts', hparts', hlisted⟩ :=
    Each.listed (I := fun (name : Ident) P => Prints ctx name.text P) hfirst hparts
  rw [List.append_nil, hP', hlisted]
  exact .listing hparts'

/-! ## Clauses about partitions -/

/-- A command on partitions is printed with its word, `PARTITION` and the names. -/
theorem parsePartitionCommand_echoes (command : PartitionCommand) (h : command.trailer = "") :
    Echoes ctx (parsePartitionCommand command) (Rest ctx command.verb) (fun _ => Ends)
      (Shadows 2) :=
  keyword_behind <| parsePartitions_echoes.trailing.bind fun partitions P hpartitions =>
    .pure (.of hpartitions (by simp [text, chunks, partitionsText, h, String.append_assoc]; rfl)
      (by simp)) fun _ _ => .of_ends

/-- A keyword that ends a list of partitions. -/
theorem keyword_behind_partitions {q : Parser AlterClause} {R : AlterClause → TokenRel}
    (hq : Echoes ctx q (Rest ctx (words ++ keywordsText [k])) R Anything) :
    Echoes ctx (Parser.expectKeyword k >>= fun _ => q) (Rest ctx words) R CommaAlike := by
  refine .after (.expectKeyword_of (solid_keywordsTokens [k]) (Q := Anything)
    (fun t T T' ht hk _ => .of_shadows (.cons (ht.role_keyword hk) shadows_zero) ?_)
    fun _ _ h => h.1) (hq.print fun _ _ => .behind (trails_keywords _))
  rintro rfl
  cases hk

/-- A command on tablespaces has the word `TABLESPACE` behind the names, which is read first where
    no partitions are named. -/
theorem parseTablespace_echoes {whole : AlterClause} {command : PartitionCommand}
    (hwhole : whole.text = command.verb ++ " TABLESPACE") (h : command.trailer = " TABLESPACE") :
    Echoes ctx (parseTablespace whole command) (Rest ctx command.verb) (fun _ => Ends)
      (Shadows 2) := by
  refine keyword_test (.pure (.of .nil (by simp [hwhole]; rfl) rfl) fun _ _ h => h.shadows) <|
    keyword_behind <| parsePartitions_echoes.trailing.bind fun partitions P hpartitions =>
      behind_part hpartitions <| keyword_behind_partitions <|
        .pure (.of .nil ?_ rfl) fun _ _ _ => trivial
  simp [text, chunks, partitionsText, h, String.append_assoc]
  rfl

theorem parseReorganize_echoes :
    Echoes ctx parseReorganize (Rest ctx "REORGANIZE") (fun _ => Ends) (Shadows 2) := by
  refine keyword_behind <| parsePartitions_echoes.trailing.bind fun partitions P hpartitions =>
    behind_part hpartitions <| keyword_behind_partitions <| .bind
      ((PartitionDefinition.parseList_trailing (n := 0)).front fun _ _ _ => trivial)
      fun into P' hinto => .pure (.of hinto ?_ (by simp)) fun _ _ _ => trivial
  simp [text, chunks, partitionsText, String.append_assoc]
  rfl

/-- Whether rows are validated is printed if something was said about it behind the table. -/
theorem parseExchange_echoes :
    Echoes ctx parseExchange (Rest ctx "EXCHANGE") (fun _ => Shadows 3) (Shadows 2) := by
  have hname : Echoes ctx (Ident.parse false) (fun name P => Trails ctx (" " ++ name.text) P)
      (fun _ => Shadows 5) (Shadows 1) :=
    (Ident.parse_echoes.front fun _ _ h => h.mono (by omega)).trailing
  refine keyword_behind <| hname.bind fun partition P hpartition => behind_part hpartition <|
    keywords_behind (n := 3) <| (ObjectName.parse_echoes (n := 1)).trailing.bind
      fun table P' htable => behind_part htable ?_
  refine keywords_test (n := 0) (.pure (.of .nil ?_ rfl) fun _ _ _ => shadows_zero) <|
    keywords_test (n := 0) (.pure (.of .nil ?_ rfl) fun _ _ _ => shadows_zero) <|
      .pure (.of .nil ?_ rfl) fun _ _ h => h.mono (by simp)
  all_goals
    simp [text, chunks, String.append_assoc]
    try rfl

/-! ## Settings -/

/-- `DEFAULT` is printed in front of the collation if it was read there. -/
theorem parseCollate_echoes (default : Bool) : Echoes ctx (parseCollate default)
    (Rest ctx ((if default then "DEFAULT " else "") ++ "COLLATE")) (fun _ => Shadows n)
    (Shadows (n + 1)) :=
  acceptEquals_echoes.bind fun equals P hequals => Ident.parse_echoes.trailing.bind
    fun name P' hname => .pure (.of (hequals.append hname)
      (by simp [text, chunks, String.append_assoc]) (by simp)) fun _ _ h => h

theorem parseCharacterSet_echoes (default : Bool) : Echoes ctx (parseCharacterSet default)
    (Rest ctx ((if default then "DEFAULT " else "") ++ "CHARACTER SET")) (fun _ => Shadows (n + 1))
    (Shadows (n + 2)) :=
  acceptEquals_echoes.bind fun equals P hequals => Ident.parse_echoes.trailing.bind
    fun name P' hname => CharacterSetCollation.parse_echoes.bind fun collation P'' hcollation =>
      .pure (.of (hequals.append (hname.append hcollation))
        (by simp [text, chunks, String.append_assoc]) (by simp)) fun _ _ h => h

theorem parseDefault_echoes : Echoes ctx parseDefault (Rest ctx "DEFAULT")
    (fun _ => Shadows 3) (Shadows 4) :=
  keyword_test (n := 3) ((parseCollate_echoes (n := 3) true).mono (fun _ _ => .of_eq rfl)
      (fun _ _ _ h => h) fun _ _ h => h.mono (by omega)) <|
    keywords_behind (n := 2) <| (parseCharacterSet_echoes (n := 2) true).mono
      (fun _ _ => .of_eq rfl) (fun _ _ _ h => h) fun _ _ h => h.mono (by omega)

/-- A conversion is printed without a word for its flags, as it was read. -/
theorem parseConvert_echoes : Echoes ctx parseConvert (Rest ctx "CONVERT")
    (fun _ => Shadows (n + 1)) (Shadows (n + 5)) := by
  refine keywords_behind <| Ident.parse_echoes.trailing.bind fun charset P hcharset =>
    CharacterSetCollation.parse_echoes.bind fun collation P' hcollation =>
      .pure (.of (hcharset.append hcollation) ?_ (by simp)) fun _ _ h => h
  simp [text, chunks, String.append_assoc]
  rfl

/-- A setting is printed with its own word and the name that was read. -/
theorem parseSetting_echoes (kind : NamedSetting) : Echoes ctx (parseSetting kind)
    (Rest ctx kind.text) (fun _ => Shadows n) (Shadows (n + 1)) :=
  acceptEquals_echoes.bind fun equals P hequals => Ident.parse_echoes.trailing.bind
    fun name P' hname => .pure (.of (hequals.append hname)
      (by simp [text, chunks, String.append_assoc]) (by simp)) fun _ _ h => h

/-! ## Clauses about columns -/

/-- Columns in parentheses or one column. -/
theorem columns_echoes {item : Parser ColumnDefinition}
    {f : Bool → List ColumnDefinition → AlterClause}
    (hitem : Echoes ctx item (fun column P => Prints ctx column.text P) (fun _ => Shadows 3)
      (Shadows 4)) (hl : Local (Follow StatementEnd) item)
    (htext : ∀ parenthesized columns, (f parenthesized columns).text =
      words ++ (" " ++ Text.Chunks.text (columnsChunks columns parenthesized))) :
    Echoes ctx (do
      if (← peek).token = .lparen then return f true (← parenthesizedList item)
      return f false [← ColumnDefinition.parse])
      (Rest ctx words) (fun _ => Shadows 3) (Shadows 4) := by
  refine .peek (fun l l' hrole => ?_) (fun l => .ite (fun _ => ?_) fun _ => ?_)
    fun _ _ h => h.mono (by omega)
  · have hparen : (l.token = .lparen) = (l'.token = .lparen) :=
      propext (Token.eq_sign_of_role hrole trivial)
    simp only [hparen]
  -- behind a parenthesis a list of columns, otherwise a single one
  · have hlist := Echoes.parenthesizedList (n := 4) hitem hl (fun _ _ _ h => h.shadows)
      fun _ _ h => h.mono (by omega)
    refine (hlist.spaced).bind fun columns P ⟨_, hP, parts, hparts, _, hP'⟩ =>
      .pure (.of (Prints.listing_chunks hparts).enclosed.trails ?_ (by simp [hP, hP']))
        fun _ _ _ => trivial
    simp [htext, columnsChunks, String.append_assoc]
  · refine (ColumnDefinition.parse_echoes (n := 0)).spaced.bind
      fun column P ⟨_, hP, _, hcolumn⟩ => .pure (.of hcolumn.trails ?_ (by simp [hP]))
        fun _ _ h => h
    simp [htext, columnsChunks, ColumnDefinition.text]

/-- The word `COLUMN` stays in front of the definition that it was read with. -/
theorem parseModifiedColumn_echoes : Echoes ctx parseModifiedColumn
    (fun column P => Prints ctx column.text P) (fun _ => Shadows (n + 3)) (Shadows (n + 4)) := by
  refine (Echoes.acceptKeyword (n := n + 3) (k := .column) (N := [.ofKeyword .column, .space])
    rfl).bind fun b P hP => ?_
  refine ((ColumnDefinition.parse_echoes (n := n)).front fun _ _ h => ?_).bind
    fun column P' ⟨hnone, hcolumn⟩ => .pure ?_ fun _ _ h => h
  · cases b with
    | true => exact h.mono (by omega)
    | false => exact h
  · have hlead : Leads ctx (if b then "COLUMN " else "") P := by
      subst hP
      cases b with
      | false => exact .nil
      | true => exact (Prints.keyword .column).leads
    refine (hlead.append hcolumn).of_eq ?_ (by simp)
    rw [ColumnDefinition.text_eq, ColumnDefinition.text_eq, hnone]
    cases b <;> simp [ColumnKeyword.lead]

/-- What stands between `MODIFY` and the columns is printed as it was read. -/
theorem parseModify_echoes :
    Echoes ctx parseModify (Rest ctx "MODIFY") (fun _ => Shadows 3) (Shadows 4) := by
  refine (ColumnKeyword.parse_echoes (n := 3)).bind fun keyword P hkeyword =>
    behind_part hkeyword <| columns_echoes parseModifiedColumn_echoes parseModifiedColumn_local
      fun parenthesized columns => ?_
  cases keyword <;> simp [text, chunks, ColumnKeyword.lead, ColumnKeyword.trailer] <;> rfl

theorem parseChange_echoes :
    Echoes ctx parseChange (Rest ctx "CHANGE") (fun _ => Shadows 3) (Shadows 4) := by
  refine Echoes.front (S := Shadows 5) ?_ fun _ _ h => h.mono (by omega)
  refine (ColumnKeyword.parse_echoes (n := 4)).bind fun keyword P hkeyword =>
    (Ident.parse_echoes (n := 4)).trailing.bind fun name P' hname => .bind
      (ColumnDefinition.parse_echoes (n := 0)).spaced
      fun column P'' ⟨Q, hP'', _, hcolumn⟩ => .pure (.of (hkeyword.append
        (hname.append hcolumn.trails)) ?_ (by simp [hP''])) fun _ _ h => h
  cases keyword <;> simp [text, chunks, ColumnKeyword.lead, ColumnKeyword.trailer,
    ColumnDefinition.text, String.append_assoc] <;> rfl

/-- What is read behind `ADD` where no constraint starts. -/
def parseAddedColumns : Parser AlterClause := do
  if ← acceptKeyword .partition then return .addPartition (← PartitionDefinition.parseList)
  let keyword ← ColumnKeyword.parse
  let ifNotExists ← acceptKeywords [.if, .not, .exists]
  if (← peek).token = .lparen then
    return .addColumns keyword ifNotExists true (← parenthesizedList ColumnDefinition.parse)
  return .addColumns keyword ifNotExists false [← ColumnDefinition.parse]

/-- Partitions are told from columns by their word, and a list of columns by its parenthesis. -/
theorem parseAddedColumns_echoes :
    Echoes ctx parseAddedColumns (Rest ctx "ADD") (fun _ => Shadows 3) (Shadows 4) := by
  refine keyword_test (n := 3) ?_ <| (ColumnKeyword.parse_echoes (n := 3)).bind
    fun keyword P hkeyword => .bind (acceptKeywords_echoes (n := 1) _)
      fun ifNotExists P' hexists => ?_
  · refine PartitionDefinition.parseList_trailing.bind fun partitions P hpartitions =>
      .pure (.of hpartitions ?_ (by simp)) fun _ _ _ => trivial
    simp [text, chunks, String.append_assoc]
    rfl
  · refine (columns_echoes (ColumnDefinition.parse_echoes.print fun _ _ h => h.2)
      ColumnDefinition.parse_local fun parenthesized columns => ?_).print
        fun clause P'' hclause => .behind hkeyword (hclause.behind hexists)
    cases keyword <;> cases ifNotExists <;>
      simp [text, chunks, ColumnKeyword.lead, ColumnKeyword.trailer] <;> rfl

section

omit hd

variable {c : Cursor}

/-- The word in front of a column is read or it is not there; the reader never fails. -/
theorem columnKeyword_run (ctx : Context) (c : Cursor) : ColumnKeyword.parse ctx c = .ok .none c ∨
    ∃ keyword c', keyword ≠ .none ∧ ColumnKeyword.parse ctx c = .ok keyword c' := by
  have hrun : ∀ k, acceptKeyword k ctx c =
      if hasKeyword (some k) c.peek then .ok true c.next.2 else .ok false c := fun k =>
    acceptWord_run (some k) ctx c
  by_cases hcolumn : hasKeyword (some .column) c.peek = true
  · exact .inr ⟨.column, c.next.2, nofun, bind_ok.mpr ⟨true, _, by rw [hrun, if_pos hcolumn], rfl⟩⟩
  · have hfalse : acceptKeyword .column ctx c = .ok false c := by rw [hrun, if_neg hcolumn]
    by_cases hcolumns : hasKeyword (some .columns) c.peek = true
    · exact .inr ⟨.columns, c.next.2, nofun, bind_ok.mpr ⟨false, c, hfalse, bind_ok.mpr
        ⟨true, _, by rw [hrun, if_pos hcolumns], rfl⟩⟩⟩
    · exact .inl (bind_ok.mpr ⟨false, c, hfalse, bind_ok.mpr
        ⟨false, c, by rw [hrun, if_neg hcolumns], rfl⟩⟩)

/-- A word that starts a constraint is none of those that stand in front of columns. -/
theorem parseAdd_constraint (h : TableConstraint.startsConstraint c.peek.token = true) :
    parseAdd ctx c = (do return .addConstraint (← TableConstraint.parse) : Parser _) ctx c := by
  cases hk : c.peek.token.bareKeyword? with
  | none => simp [TableConstraint.startsConstraint, hk] at h
  | some k =>
      have hpassed : ∀ k' ∈ [Keyword.partition, .column, .columns],
          acceptKeyword k' ctx c = .ok false c := by
        intro k' hk'
        rw [TableConstraint.acceptKeyword_bare hk, if_neg]
        rintro rfl
        simp only [List.mem_cons, List.not_mem_nil, or_false] at hk'
        rcases hk' with rfl | rfl | rfl <;> simp [TableConstraint.startsConstraint, hk] at h
      have hcolumn : ColumnKeyword.parse ctx c = .ok .none c :=
        bind_ok.mpr ⟨false, c, hpassed _ (by simp),
          bind_ok.mpr ⟨false, c, hpassed _ (by simp), rfl⟩⟩
      rw [parseAdd, bind_run (hpassed .partition (by simp))]
      refine (bind_run hcolumn _).trans ?_
      rw [bind_run (peek_ok.mpr ⟨rfl, rfl⟩), h]
      rfl

/-- Where no constraint starts, columns or partitions are added. -/
theorem parseAdd_columns (h : TableConstraint.startsConstraint c.peek.token = false) :
    parseAdd ctx c = parseAddedColumns ctx c := by
  rw [parseAdd, parseAddedColumns]
  by_cases hpartition : hasKeyword (some .partition) c.peek = true
  · have hrun : acceptKeyword .partition ctx c = .ok true c.next.2 := by
      rw [acceptKeyword, acceptWord_run, if_pos hpartition]
    rw [bind_run hrun, bind_run hrun]
    rfl
  · have hrun : acceptKeyword .partition ctx c = .ok false c := by
      rw [acceptKeyword, acceptWord_run, if_neg hpartition]
    rw [bind_run hrun, bind_run hrun]
    rcases columnKeyword_run ctx c with hnone | ⟨keyword, c', hne, hkeyword⟩
    · refine (bind_run hnone _).trans (Eq.trans ?_ (bind_run hnone _).symm)
      rw [bind_run (peek_ok.mpr ⟨rfl, rfl⟩), h]
      rfl
    · refine (bind_run hkeyword _).trans (Eq.trans ?_ (bind_run hkeyword _).symm)
      rw [bind_run (peek_ok.mpr ⟨rfl, rfl⟩), decide_eq_false hne]
      rfl

end

/-- What starts a constraint in the text starts one in the print, so the same choice is made. -/
theorem parseAdd_echoes :
    Echoes ctx parseAdd (Rest ctx "ADD") (fun _ => Shadows 3) Anything := by
  refine .split (fun t => TableConstraint.startsConstraint t = true) (fun _ => parseAdd_constraint)
    (fun c hc => parseAdd_columns (by simpa using hc))
    (TableConstraint.parse_echoes.spaced.bind fun constraint P hconstraint =>
      .pure ?_ fun _ _ h => h)
    parseAddedColumns_echoes (fun T T' hB h => ⟨trivial, h hB⟩) fun T T' hB h => ⟨trivial, ?_⟩
  · obtain ⟨P', hP, hconstraint⟩ := hconstraint
    intro hsingle
    refine ⟨" " ++ constraint.text, ?_, (hconstraint hsingle).trails.of_eq rfl (by simp [hP])⟩
    simp [text, chunks, TableConstraint.text]
    rfl
  · rwa [← TableConstraint.startsConstraint_role, ← h.front,
      TableConstraint.startsConstraint_role]

/-! ## `ALTER`, `DROP` and `RENAME` -/

/-- An index or a constraint is told by its word, and everything else that is altered is a column.
    -/
theorem parseAlter_echoes :
    Echoes ctx parseAlter (Rest ctx "ALTER") (fun _ => Shadows 3) (Shadows 4) := by
  refine keyword_test ?_ (.bind (.acceptOneOf (n := 3) (W := fun k => [.space, .ofKeyword k])
    fun _ _ => rfl) ?_)
  · have hname : Echoes ctx (Ident.parse false) (fun name P => Trails ctx (" " ++ name.text) P)
        (fun _ => Shadows 4) (Shadows 3) :=
      (Ident.parse_echoes.front fun _ _ h => h.mono (by omega)).trailing
    refine hname.bind fun name P hname => .bind
      (.expectOneOf (n := 3) (W := fun k => [.space, .ofKeyword k]) fun _ _ => rfl) ?_
    rintro k _ ⟨rfl, hk⟩
    simp only [List.mem_cons, List.not_mem_nil, or_false] at hk
    have htail := hname.append (Prints.keyword k).trails
    -- `VISIBLE` or `INVISIBLE`
    rcases hk with rfl | rfl
    · exact .pure (.of htail (by simp [text, chunks, visibility, String.append_assoc]; rfl)
        (by simp)) fun _ _ h => h
    · exact .pure (.of htail (by simp [text, chunks, visibility, String.append_assoc]; rfl)
        (by simp)) fun _ _ h => h
  · rintro (_ | k) P ⟨rfl, hk⟩
    · refine (ColumnKeyword.parse_echoes (n := 3)).bind fun keyword P hkeyword =>
        (Ident.parse_echoes (n := 3)).trailing.bind fun name P' hname =>
          ColumnAction.parse_echoes.spaced.bind fun action P'' haction => .pure ?_ fun _ _ h => h
      obtain ⟨Q, hQ, haction⟩ := haction
      intro hsingle
      refine ⟨_, ?_, (hkeyword.append (hname.append (haction hsingle).trails)).of_eq rfl
        (by simp [hQ])⟩
      cases keyword <;> simp [text, chunks, ColumnKeyword.lead, ColumnKeyword.trailer,
        String.append_assoc] <;> rfl
    · -- the word of a constraint that is switched on or off
      have hname : Echoes ctx (Ident.parse false) (fun name P => Trails ctx (" " ++ name.text) P)
          (fun _ => Shadows 2) (Shadows 3) := Ident.parse_echoes.trailing
      refine hname.bind fun name P hname => (acceptKeyword_echoes (n := 1) .not).bind
        fun negated P' hnegated => .keyword_behind (N := [.space, .ofKeyword .enforced]) rfl
          (.pure ?_ fun _ _ h => h.mono (by omega))
      have htail := hname.append (hnegated.append (Prints.keyword .enforced).trails)
      simp only [List.mem_cons, List.not_mem_nil, or_false] at hk
      rcases hk k rfl with rfl | rfl
      · refine .of ((Prints.keyword .constraint).trails.append htail) ?_ (by simp)
        cases negated <;>
          simp [text, chunks, EnforcementKeyword.text, negation, String.append_assoc] <;> rfl
      · refine .of ((Prints.keyword .check).trails.append htail) ?_ (by simp)
        cases negated <;>
          simp [text, chunks, EnforcementKeyword.text, negation, String.append_assoc] <;> rfl

/-- Reads a clause behind `DROP FOREIGN KEY`. -/
def parseForeignKey : Parser AlterClause := do
  let after := (← peek).token
  let name ←
    if endsClause after || after = .lparen then pure none else some <$> Ident.parse false
  let columns ← if (← peek).token = .lparen then Ident.parseList else pure []
  return .dropForeignKey name columns

theorem endsClause_role (t : Token) : endsClause t.role = endsClause t := by cases t <;> rfl

/-- A foreign key that is dropped may have a name, columns, both or neither; what stands behind
    tells which. -/
theorem parseForeignKey_echoes : Echoes ctx parseForeignKey (Rest ctx "DROP FOREIGN KEY")
    (fun _ => Shadows (n + 1)) (Shadows (n + 1)) := by
  -- the name and the columns are optional, so the clause is put together apart from their readers
  have hresult : ∀ (name : Option Ident) (columns : List Ident) (P P' : List Token),
      Trails ctx (name.elim "" fun name => " " ++ name.text) P →
      Trails ctx (if columns.isEmpty then ""
        else " " ++ ("(" ++ Text.commaSeparated (columns.map Ident.text) ++ ")")) P' →
      Echoes ctx (return .dropForeignKey name columns)
        (fun clause Q => Rest ctx "DROP FOREIGN KEY" clause (P ++ (P' ++ Q)))
        (fun _ => Shadows (n + 1)) (Shadows (n + 1)) := by
    intro name columns P P' hname hcolumns
    refine .pure (.of (hname.append hcolumns) ?_ (by simp)) fun _ _ h => h
    cases name <;> cases h : columns.isEmpty <;> simp [text, chunks, h, String.append_assoc] <;> rfl
  -- the columns are read if a parenthesis is ahead
  have hcolumns : ∀ (name : Option Ident) (P : List Token),
      Trails ctx (name.elim "" fun name => " " ++ name.text) P → Echoes ctx (do
        let columns ← if (← peek).token = .lparen then Ident.parseList else pure []
        return .dropForeignKey name columns)
        (fun clause P' => Rest ctx "DROP FOREIGN KEY" clause (P ++ P')) (fun _ => Shadows (n + 1))
        (Shadows (n + 1)) := by
    intro name P hname
    refine .peek (fun l l' hrole => ?_) (fun l => ?_) fun _ _ h => h.mono (by omega)
    · have hparen : (l.token = .lparen) = (l'.token = .lparen) :=
        propext (Token.eq_sign_of_role hrole trivial)
      simp only [hparen]
    · dsimp only
      refine .ite (fun _ => Ident.parseList_echoes.spaced.bind
          fun columns P' ⟨Q, hP', hne, hcolumns⟩ => (hresult name columns P P' hname ?_).front
            fun _ _ _ => trivial)
        fun _ => .bind (.pure (F := fun columns P' => columns = [] ∧ P' = [])
          (R := fun _ => Shadows (n + 1)) ⟨rfl, rfl⟩ fun _ _ h => h) ?_
      · rw [if_neg (by simpa using hne)]
        exact hcolumns.trails.of_eq rfl hP'.symm
      · rintro _ _ ⟨rfl, rfl⟩
        exact hresult name [] P [] hname .nil
  refine .peek (fun l l' hrole => ?_) (fun l => ?_) fun _ _ h => h.mono (by omega)
  · have hparen : (l.token = .lparen) = (l'.token = .lparen) :=
      propext (Token.eq_sign_of_role hrole trivial)
    have hends : endsClause l.token = endsClause l'.token := by
      rw [← endsClause_role, hrole, endsClause_role]
    simp only [hparen, hends]
  · dsimp only
    -- the name is missing in front of a parenthesis and at the end of the clause
    exact .ite (fun _ => .bind (.missing (g := fun name : Ident => " " ++ name.text))
        hcolumns) fun _ => .bind (.optional (Ident.parse_echoes.front fun _ _ h =>
          h.mono (by omega))) hcolumns

/-- A name that is dropped, with what happens to what depends on it. -/
theorem dropped_echoes {f : Bool → Ident → Option DropBehavior → AlterClause}
    (htext : ∀ ifExists name behavior, (f ifExists name behavior).text =
      words ++ ((if ifExists then keywordsText [.if, .exists] else "") ++
        (" " ++ name.text ++ DropBehavior.trailer behavior))) :
    Echoes ctx (do
      let ifExists ← acceptKeywords [.if, .exists]
      let name ← Ident.parse false
      return f ifExists name (← DropBehavior.parse))
      (Rest ctx words) (fun _ => Shadows (n + 2)) (Shadows (n + 3)) := by
  have hname : Echoes ctx (Ident.parse false) (fun name P => Trails ctx (" " ++ name.text) P)
      (fun _ => Shadows (n + 2)) (Shadows (n + 3)) := Ident.parse_echoes.trailing
  exact (acceptKeywords_echoes (n := n + 1) _).bind fun ifExists P₁ hexists => hname.bind
    fun name P₂ hname => (DropBehavior.parse_echoes (n := n + 1)).bind
      fun behavior P₃ hbehavior => .pure (.of (hexists.append (hname.append hbehavior))
        (htext _ _ _) (by simp)) fun _ _ h => h

/-- Each thing that can be dropped is told by its first word. -/
theorem parseDrop_echoes :
    Echoes ctx parseDrop (Rest ctx "DROP") (fun _ => Ends) (Shadows 2) := by
  refine keywords_test (n := 0) ?_ <| keyword_test (n := 1) ?_ <|
    keywords_test (n := 0) ?_ <| (IndexKeyword.parse_echoes (n := 1)).bind fun kind P hkind => ?_
  · refine .pure (.of .nil ?_ rfl) fun _ _ h => h.shadows
    simp [text, chunks]
    rfl
  · refine Ident.parseList_echoes.spaced.bind fun columns P ⟨Q, hP, _, hcolumns⟩ =>
      .pure (.of hcolumns.trails ?_ (by simp [hP])) fun _ _ _ => trivial
    simp [text, chunks, String.append_assoc]
    rfl
  · exact (parseForeignKey_echoes (n := 0)).mono (fun _ _ => .of_eq rfl) (fun _ _ _ h => h.shadows)
      fun _ _ _ => shadows_zero
  · cases kind with
    | some kind =>
        refine (Ident.parse_echoes (n := 1)).trailing.bind fun name P' hname =>
          .pure (.of (hkind.append hname) ?_ (by simp)) fun _ _ h => h.shadows
        simp [text, chunks, String.append_assoc]
        rfl
    -- no index: partitions, a constraint or a column
    | none =>
        refine .print (F := Rest ctx "DROP")
          (keyword_test (n := 1) ?_ <| keyword_test (n := 1) ?_ ?_)
          fun clause P' hclause => .behind hkind (hclause.of_eq (by simp))
        · refine parsePartitions_echoes.trailing.bind fun partitions P' hpartitions =>
            .pure (.of hpartitions ?_ (by simp)) fun _ _ h => .of_ends h
          simp [text, chunks, partitionsText, PartitionCommand.verb, PartitionCommand.trailer,
            String.append_assoc]
          rfl
        · refine (dropped_echoes (n := 0) fun ifExists name behavior => ?_).mono
            (fun _ _ h => h) (fun _ _ _ h => h.shadows) fun _ _ h => h.mono (by omega)
          cases ifExists <;> simp [text, chunks, String.append_assoc] <;> rfl
        · refine .bind ((ColumnKeyword.parse_echoes (n := 2)).front fun _ _ h => h.mono (by omega))
            fun keyword P' hkeyword =>
              (dropped_echoes (n := 0) fun ifExists name behavior => ?_).mono
                (fun _ _ h => h.behind hkeyword) (fun _ _ _ h => h.shadows) fun _ _ h => h
          cases keyword <;> cases ifExists <;>
            simp [text, chunks, ColumnKeyword.lead, ColumnKeyword.trailer,
              String.append_assoc] <;> rfl

/-! ## Renaming -/

/-- The word for what is renamed is printed if it was read. -/
theorem parseRenameKind_echoes : Echoes ctx parseRenameKind
    (fun o P => Trails ctx (o.elim "" fun kind => " " ++ kind.text) P) (fun _ => Shadows (n + 1))
    (Shadows (n + 1)) :=
  .keyword_test (k := .index) (N := [.space, .ofKeyword .index]) rfl
    (.pure (Prints.keyword .index).trails fun _ _ h => h.mono (by omega)) <|
  .keyword_test (k := .key) (N := [.space, .ofKeyword .key]) rfl
    (.pure (Prints.keyword .key).trails fun _ _ h => h.mono (by omega)) <|
  .keyword_test (k := .constraint) (N := [.space, .ofKeyword .constraint]) rfl
    (.pure (Prints.keyword .constraint).trails fun _ _ h => h.mono (by omega)) <|
  .pure .nil fun _ _ h => h

/-- Two names with `TO` between them. -/
theorem renamed_echoes {f : Ident → Ident → AlterClause}
    (htext : ∀ oldName newName, (f oldName newName).text =
      words ++ (" " ++ oldName.text ++ (" TO" ++ (" " ++ newName.text)))) :
    Echoes ctx (do
      let oldName ← Ident.parse false
      let _ ← expectKeyword .to
      let newName ← Ident.parse false
      return f oldName newName)
      (Rest ctx words) (fun _ => Shadows n) (Shadows (n + 1)) := by
  have hold : Echoes ctx (Ident.parse false) (fun name P => Trails ctx (" " ++ name.text) P)
      (fun _ => Shadows (n + 2)) (Shadows (n + 1)) :=
    (Ident.parse_echoes.front fun _ _ h => h.mono (by omega)).trailing
  have hto : Trails ctx " TO" [.space, .ofKeyword .to] := (Prints.keyword .to).trails
  exact hold.bind fun oldName P₁ hold => .keyword_behind (N := [.space, .ofKeyword .to]) rfl <|
    Ident.parse_echoes.trailing.bind fun newName P₂ hnew =>
      .pure (.of (hold.append (hto.append hnew)) (htext _ _) (by simp)) fun _ _ h => h

/-- Behind `RENAME` stands a new name for the table, or two names with `TO` between them. -/
theorem parseRename_echoes : Echoes ctx parseRename (Rest ctx "RENAME")
    (fun _ => Shadows 1) (Shadows 1) := by
  refine .bind (.acceptOneOf (n := 0) (W := fun k => [.space, .ofKeyword k]) fun _ _ => rfl) ?_
  rintro (_ | k) P ⟨rfl, hk⟩
  · refine (parseRenameKind_echoes (n := 0)).bind fun kind P hkind => behind_part hkind ?_
    cases kind with
    | some kind =>
        refine (renamed_echoes (f := renameObject kind) fun oldName newName => ?_).front
          fun _ _ h => h.mono (by omega)
        simp [text, chunks, String.append_assoc]
        rfl
    | none =>
        refine .bind (ColumnKeyword.parse_echoes (n := 0)) fun keyword P' hkeyword =>
          behind_part hkeyword ((renamed_echoes (f := renameColumn keyword)
            fun oldName newName => ?_).front fun _ _ h => h.mono (by omega))
        cases keyword <;> simp [text, chunks, ColumnKeyword.lead, ColumnKeyword.trailer,
          String.append_assoc] <;> rfl
  · have hname : Echoes ctx ObjectName.parse (fun name P => Trails ctx (" " ++ name.text) P)
        (fun _ => Shadows 1) (Shadows 0) :=
      (ObjectName.parse_echoes.front fun _ _ _ => shadows_zero).trailing
    refine hname.bind fun name P hname => .pure ?_ fun _ _ h => h
    -- the new name of the table, behind `TO` or `AS`
    have htail := fun k => (Prints.keyword k).trails.append hname
    simp only [List.mem_cons, List.not_mem_nil, or_false] at hk
    rcases hk k rfl with rfl | rfl
    · exact .of (htail .to) (by simp [text, chunks, String.append_assoc]; rfl) (by simp)
    · exact .of (htail .as) (by simp [text, chunks, String.append_assoc]; rfl) (by simp)

/-! ## Clauses -/

omit hd in
/-- Where the first word stood matters to errors alone. -/
theorem parseAfter_found {found : Located} (found' : Located) {keyword : Option Keyword}
    {d d' : Cursor} {clause : AlterClause} (h : parseAfter found keyword ctx d = .ok clause d') :
    parseAfter found' keyword ctx d = .ok clause d' := by
  unfold parseAfter at h ⊢
  split at h
  all_goals try exact h
  · rcases ite_ok.mp h with ⟨hmem, h⟩ | ⟨-, h⟩
    · exact ite_ok.mpr (.inl ⟨hmem, h⟩)
    · exact absurd h expected_ne_ok
  · exact absurd h expected_ne_ok

/-- The first word chooses the reader, and the print starts with the same word. -/
theorem parseAfter_echoes (found : Located) {keyword : Option Keyword}
    (h : keyword ≠ some .move) : Echoes ctx (parseAfter found keyword)
      (Rest ctx (keyword.elim "" Keyword.name)) (fun _ => Ends) Anything := by
  unfold parseAfter
  split
  · exact parseAdd_echoes.behind fun _ _ _ h => h.shadows
  · exact parseAlter_echoes.mono (fun _ _ h => h) (fun _ _ _ h => h.shadows) fun _ _ _ => trivial
  · exact parseDrop_echoes.front fun _ _ _ => trivial
  · exact parseModify_echoes.mono (fun _ _ h => h) (fun _ _ _ h => h.shadows) fun _ _ _ => trivial
  · exact parseChange_echoes.mono (fun _ _ h => h) (fun _ _ _ h => h.shadows) fun _ _ _ => trivial
  · exact parseRename_echoes.mono (fun _ _ h => h) (fun _ _ _ h => h.shadows) fun _ _ _ => trivial
  · exact (parseCollate_echoes (n := 0) false).mono (fun _ _ => .of_eq rfl)
      (fun _ _ _ h => h.shadows) fun _ _ _ => trivial
  · exact parseDefault_echoes.mono (fun _ _ h => h) (fun _ _ _ h => h.shadows)
      fun _ _ _ => trivial
  · exact (keyword_behind ((parseCharacterSet_echoes (n := 0) false).print
      fun _ _ => .of_eq rfl)).mono (fun _ _ h => h) (fun _ _ _ h => h.shadows)
        fun _ _ _ => trivial
  · exact (parseConvert_echoes (n := 0)).mono (fun _ _ h => h) (fun _ _ _ h => h.shadows)
      fun _ _ _ => trivial
  · exact (parseSetting_echoes (n := 0) .lock).mono (fun _ _ h => h) (fun _ _ _ h => h.shadows)
      fun _ _ _ => trivial
  · exact (parseSetting_echoes (n := 0) .algorithm).mono (fun _ _ h => h)
      (fun _ _ _ h => h.shadows) fun _ _ _ => trivial
  · exact (parseSetting_echoes (n := 0) .engine).mono (fun _ _ h => h) (fun _ _ _ h => h.shadows)
      fun _ _ _ => trivial
  · refine ((acceptEquals_echoes (n := 0)).front fun _ _ _ => trivial).bind
      fun equals P hequals => .bind (.trailing (g := fun size : Nat => toString size)
        (Literal.parseCount_echoes.print fun _ _ h => h.2)) fun size P' hsize =>
          .pure (.of (hequals.append hsize) ?_ (by simp)) fun _ _ _ => trivial
    simp [text, chunks, String.append_assoc]
    rfl
  · exact .pure (.of .nil rfl rfl) fun _ _ _ => trivial
  · refine ((acceptEquals_echoes (n := 0)).front fun _ _ _ => trivial).bind
      fun equals P hequals => Literal.parseString_echoes.trailing.bind fun value P' hvalue =>
        .pure (.of (hequals.append hvalue) ?_ (by simp)) fun _ _ _ => trivial
    simp [text, chunks, String.append_assoc]
    rfl
  · exact (parseTablespace_echoes rfl rfl).front fun _ _ _ => trivial
  · exact (parseTablespace_echoes rfl rfl).front fun _ _ _ => trivial
  · exact (keyword_behind (n := 0) (.pure (.of .nil rfl rfl) fun _ _ _ => shadows_zero)).front
      fun _ _ _ => trivial
  · exact (keyword_behind (n := 0) (.pure (.of .nil rfl rfl) fun _ _ _ => shadows_zero)).front
      fun _ _ _ => trivial
  · exact (parsePartitionCommand_echoes .truncate rfl).front fun _ _ _ => trivial
  · exact (parsePartitionCommand_echoes .analyze rfl).front fun _ _ _ => trivial
  · exact (parsePartitionCommand_echoes .check rfl).front fun _ _ _ => trivial
  · exact (parsePartitionCommand_echoes .optimize rfl).front fun _ _ _ => trivial
  · exact (parsePartitionCommand_echoes .rebuild rfl).front fun _ _ _ => trivial
  · exact (parsePartitionCommand_echoes .repair rfl).front fun _ _ _ => trivial
  · refine Echoes.front (S := Shadows 1) (keyword_behind (n := 0) <|
      .bind (.trailing (g := fun count : Nat => toString count) (Literal.parseCount_echoes.print
        fun _ _ h => h.2)) fun count P hcount => .pure (.of hcount ?_ (by simp))
          fun _ _ _ => trivial) fun _ _ _ => trivial
    simp [text, chunks, String.append_assoc]
    rfl
  · exact parseReorganize_echoes.front fun _ _ _ => trivial
  · exact parseExchange_echoes.mono (fun _ _ h => h) (fun _ _ _ h => h.shadows)
      fun _ _ _ => trivial
  · exact (keyword_behind (n := 0) (.pure (.of .nil rfl rfl) fun _ _ _ => shadows_zero)).front
      fun _ _ _ => trivial
  · refine (keyword_behind (n := 3) <| (Partitioning.parse_echoes (n := 0)).spaced.bind
      fun partitioning P hpartitioning => .pure ?_ fun _ _ h => h.shadows).front
        fun _ _ _ => trivial
    obtain ⟨P', hP, hpartitioning⟩ := hpartitioning
    intro hsingle
    refine ⟨_, ?_, (hpartitioning hsingle).trails.of_eq rfl (by simp [hP])⟩
    rw [text, chunks, ← Partitioning.text, Partitioning.text_eq]
    simp [String.append_assoc]
    rfl
  · exact absurd rfl h
  · refine .ite (fun _ => ?_) fun _ => .of_fails (.expected _ _)
    refine ((acceptEquals_echoes (n := 0)).front fun _ _ _ => trivial).bind
      fun equals P hequals => .bind (Expr.parse_echoes.spaced.front fun _ _ h => h.1)
        fun value P' hspaced => .pure (fun hsingle => ?_) fun _ _ h =>
            .of_shadows (n := 0) h.shadows
    obtain ⟨Q, hP', hvalue⟩ := hspaced
    refine ⟨_, ?_, (hequals.append (hvalue hsingle).trails).of_eq rfl (by simp [hP'])⟩
    simp [text, chunks, TableOption.chunks, Expr.text, String.append_assoc]
  · exact .of_fails (.expected _ _)

/-- Reads a clause that does not start with `MOVE`. -/
def parseStructured : Parser AlterClause := do
  let found ← next
  if found.token.bareKeyword? = some .move then expected "a clause" found
  else parseAfter found found.token.bareKeyword?

/-- A clause that does not start with `MOVE` is printed from its parts. -/
theorem parseStructured_echoes : Echoes ctx parseStructured
    (fun clause P => Written ctx clause.contents clause.text P) (fun _ => Ends) Starts := by
  refine .next (fun t => (t.bareKeyword?.map Token.ofKeyword).toList) (fun l hl => ?_)
    (.expected _ _)
  cases hk : l.token.bareKeyword? with
  | none => exact .inl (.expected _ _)
  | some k =>
      -- `MOVE` is tested for before the clauses are told apart
      by_cases hmove : k = .move
      · exact .inl (by simpa [hmove] using Fails.expected _ _)
      rw [if_neg (by simpa using hmove)]
      -- a clause that is read starts with one of the words that start clauses
      by_cases hstart : k ∈ clauseStarts
      · refine .inr ⟨.ofKeyword k, rfl, fun l' hl' d v d' h => ?_, ?_⟩
        · rw [hl', Expr.bareKeyword?_ofKeyword, if_neg (by simpa using hmove)]
          exact parseAfter_found l' h
        · refine (parseAfter_echoes l (by simpa using hmove)).mono (fun clause P hclause =>
            hclause.written (.keyword k)) (fun _ _ _ h => h) fun T T' _ =>
              ⟨.cons (Token.role_ofKeyword hk) shadows_zero, ?_⟩
          rw [frontOf_cons, startsClause, hk]
          simpa using hstart
      · refine .inl fun ctx c clause c' h => hstart ?_
        simpa using parseAfter_starts h

/-- `MOVE` starts a clause that is kept as its words; the others are printed from their parts. -/
theorem parse_echoes : Echoes ctx parse
    (fun clause P => Written ctx clause.contents clause.text P) (fun _ => Ends) Starts := by
  refine .split (fun t => t.bareKeyword? = some .move) (q := do
      let _ ← next
      back
      return .unspecific (← valueText)) (fun c hc => ?_) (fun c hc => ?_)
    (.put_back (valueText_echoes.bind fun s P hP => .pure (fun _ => ?_) fun _ _ h => h.shadows))
    parseStructured_echoes (fun T T' hmove h => ⟨⟨h, ?_⟩, ?_⟩) fun T T' hmove h => ⟨h, ?_⟩
  · rw [parse, bind_run (next_run ctx c), bind_run (next_run ctx c), hc]
    rfl
  · rw [parse, parseStructured, bind_run (next_run ctx c), bind_run (next_run ctx c),
      if_neg hc]
  · simpa [text, chunks] using hP
  · rw [startsClause, hmove]
    rfl
  · rwa [← Token.bareKeyword?_of_role h.front]
  · rwa [← Token.bareKeyword?_of_role h.1.front]

end AlterClause

/-! ## Statements -/

namespace Alter

/-- The clauses of a table are printed with commas between them, in front of the end. -/
theorem parse_echoes : Echoes ctx parse
    (fun alter P => Written ctx alter.contents alter.text (.ofKeyword .alter :: P))
    (fun _ => AtEnd) (Shadows 3) := by
  -- the clauses of the list are read back one after the other
  have hclauses : Echoes ctx (commaSeparatedWith false AlterClause.parse)
      (fun clauses P => clauses ≠ [] ∧ Written ctx (clauses.flatMap AlterClause.contents)
        (Text.commaSeparated (clauses.map AlterClause.text)) P)
      (fun _ => AtEnd) (Shadows 1) := by
    refine (Echoes.commaSeparatedWith AlterClause.parse_echoes AlterClause.parse_reads.isLocal
      (fun _ _ _ h => h) (fun _ _ h => h.1) fun T T' h => ?_).mono
        (fun clauses P ⟨parts, hparts, hP, hne⟩ => ⟨hne, hP ▸ .listing hparts⟩)
        (fun _ _ _ h => h) fun _ _ h => h.1
    rw [h.2]
    exact nofun
  refine .keyword_behind (n := 2) (k := .table) (N := [.space, .ofKeyword .table]) rfl <|
    (AlterClause.acceptKeywords_echoes (n := 0) _).bind fun ifExists P₁ hexists =>
      (AlterClause.acceptKeyword_echoes (n := 1) .only).bind fun only P₂ honly =>
        (ObjectName.parse_echoes (n := 0)).trailing.bind fun table P₃ htable =>
          hclauses.spaced.bind fun clauses P₄ ⟨Q, hP₄, hne, hclauses⟩ =>
            .pure (fun hsingle => ?_) fun _ _ h => h
  have hlist := hclauses (by simpa [contents] using hsingle)
  have htail := (Prints.keyword .table).trails.append (hexists.append (honly.append
    (htable.append hlist.trails)))
  refine ((Prints.keyword .alter).append htail).of_eq ?_ (by simp [hP₄])
  have htext : Text.Chunks.text (Text.Chunks.separated ", " (clauses.map AlterClause.chunks)) =
      Text.commaSeparated (clauses.map AlterClause.text) := by
    rw [Text.Chunks.text_separated, List.map_map]
    rfl
  cases ifExists <;> cases only <;> simp [text, chunks, hne, htext, String.append_assoc] <;> rfl

end Alter

end SchemaSql
