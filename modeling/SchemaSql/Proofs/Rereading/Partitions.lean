import SchemaSql.Proofs.Rereading.Constraints

/-! # Echoes of partitions

    `LESS THAN MAXVALUE` is printed with parentheses around `MAXVALUE`, and read back as a list
    of one value.  `STORAGE` is no keyword: a partition is followed by a comma or a closing
    parenthesis, so nothing that is printed behind one is taken for it. -/

namespace SchemaSql

open Cursor SchemaSql.Parser

variable {ctx : Context} {T T' P K : List Token} {n : Nat}

/-- A list of one item in parentheses. -/
theorem Parser.parenthesizedList_single {α : Type} {item : Parser α} {v : α} {d d' : Cursor}
    (hl : Local (Follow StatementEnd) item) (hopen : d.peek.token = .lparen)
    (hitem : item ctx d.next.2 = .ok v d') (hoverrun : d'.overrun = 0)
    (hclose : d'.peek.token = .rparen) :
    parenthesizedList item ctx d = .ok [v] d'.next.2 := by
  have hexpect : ∀ (s : Token) (c : Cursor), c.peek.token = s →
      expect s ctx c = .ok c.peek c.next.2 := fun s c hs => by
    rw [expect_run, if_pos hs]
  have hseparator : acceptSeparator false ctx d' = .ok false d' := by
    rw [acceptSeparator_run, if_neg (by simp [hclose])]
  have hmany : many (do if ← acceptSeparator false then some <$> item else return none) ctx d'
      = .ok [] d' := by
    have hshort := shortens_of fun items : List α =>
      (Offers.item (.acceptSeparator false) hl).collect items
    refine map_ok.mpr ⟨[], (iterate_ok hshort hoverrun).mpr (.done ?_), rfl⟩
    refine map_ok.mpr ⟨none, ?_, rfl⟩
    exact bind_ok.mpr ⟨false, d', hseparator, pure_ok.mpr ⟨rfl, rfl⟩⟩
  refine bind_ok.mpr ⟨_, _, hexpect .lparen d hopen, bind_ok.mpr ⟨[v], d', ?_, bind_ok.mpr
    ⟨_, _, hexpect .rparen d' hclose, pure_ok.mpr ⟨rfl, rfl⟩⟩⟩⟩
  exact bind_ok.mpr ⟨v, d', hitem, bind_ok.mpr ⟨[], d', hmany, pure_ok.mpr ⟨rfl, rfl⟩⟩⟩

/-- `MAXVALUE` in parentheses is a list of one value. -/
theorem PartitionDefinition.parseValues_maxvalue {d : Cursor}
    (hd : d.Faces (.lparen :: .ofKeyword .maxvalue :: .rparen :: K)) :
    ∃ d', parseValues ctx d = .ok ["MAXVALUE"] d' ∧ d'.Faces K := by
  obtain ⟨hopen, hinner⟩ := Faces.next (P := [.lparen]) hd rfl
  obtain ⟨l, w, hw, hl, hbehind⟩ := List.map_eq_cons_iff.mp hinner.rest
  obtain ⟨l', v, rfl, hl', hv⟩ := List.map_eq_cons_iff.mp hbehind
  -- the value is the one word, because the parenthesis behind it ends every value
  have hvalue : valueTokens 0 d.next.2.rest = [l] := by
    rw [hw]
    simp [valueTokens, hl, hl', Token.ofKeyword]
  have htext : CapturedText.ofTokens ([l].map Located.token) = "MAXVALUE" := by
    rw [List.map_singleton, hl]
    rfl
  have hsplit : d.next.2.rest = valueTokens 0 d.next.2.rest ++ l' :: v := by
    rw [hvalue, hw]
    rfl
  have hclean : Clean (l' :: v) := by
    intro t ht
    obtain rfl : l' = t := Option.some.inj ht
    simp [Located.isWhitespace, hl']
  obtain ⟨d', hrun, hat⟩ := valueText_at ctx (at_rest hinner.overrun) hsplit hclean
    (by rw [hvalue, htext]; rfl)
  rw [hvalue, htext] at hrun
  obtain ⟨hfront, hoverrun, hrest, -⟩ := next_of_cons hat.overrun hat.rest
  have hclose : d'.peek.token = .rparen := by rw [← next_fst, hfront, hl']
  refine ⟨_, parenthesizedList_single valueText_local hopen hrun hat.overrun hclose, hoverrun, ?_⟩
  rw [hrest, map_dropWhile, hv]

variable [hd : Fact (ctx.dialect ∈ Dialect.builtin)]

/-! ## One partition -/

namespace PartitionDefinition

/-- Values are kept as captured text and printed between parentheses. -/
theorem parseValues_echoes : Echoes ctx parseValues
    (fun values P => Trails ctx ("(" ++ Text.commaSeparated values ++ ")") P) (fun _ => Anything)
    (Shadows n) := by
  refine (Echoes.parenthesizedList (S := Shadows 1) valueText_echoes valueText_local
    (fun _ _ _ h => h.shadows) fun _ _ h => h).print fun values _ ⟨parts, hparts, _, hP⟩ => ?_
  have hlist : Prints ctx (Text.commaSeparated values) (listed parts) := by
    simpa using Prints.listing (g := id) hparts
  exact hP ▸ hlist.enclosed

/-- The words behind `VALUES`. -/
def boundWords : PartitionBound → String
  | .lessThan => "LESS THAN"
  | .oneOf => "IN"

/-- A bound and its values behind `VALUES`. -/
def boundText (found : PartitionBound × List String) : String :=
  boundWords found.1 ++ " (" ++ Text.commaSeparated found.2 ++ ")"

/-- Reads the values of an upper bound. -/
def parseLimit : Parser (PartitionBound × List String) := do
  if ← acceptKeyword .maxvalue then return (.lessThan, ["MAXVALUE"])
  return (.lessThan, ← parseValues)

/-- `MAXVALUE` without parentheses is printed with them, and read as the same value. -/
theorem parseLimit_echoes : Echoes ctx parseLimit
    (fun found P => found.1 = .lessThan ∧
      Trails ctx ("(" ++ Text.commaSeparated found.2 ++ ")") P) (fun _ => Anything) Anything := by
  have hvalues : Echoes ctx (do return (.lessThan, ← parseValues) : Parser (PartitionBound × _))
      (fun found P => found.1 = .lessThan ∧
        Trails ctx ("(" ++ Text.commaSeparated found.2 ++ ")") P) (fun _ => Anything)
      (Shadows 1) := parseValues_echoes.bind fun values P hP =>
    .pure ⟨rfl, by simpa using hP⟩ fun _ _ h => h
  -- with values there is no `MAXVALUE` in front, so this arm reads as the next reader does
  have hlisted : Echoes ctx (do
      if ← acceptKeyword .maxvalue then expected "values" .eof
      else return (.lessThan, ← parseValues) : Parser (PartitionBound × _))
      (fun found P => found.1 = .lessThan ∧
        Trails ctx ("(" ++ Text.commaSeparated found.2 ++ ")") P) (fun _ => Anything)
      (Shadows 1) :=
    .keyword_test (n := 0) (N := [.ofKeyword .maxvalue]) rfl (.of_fails (.expected _ _)) hvalues
  intro c found c' hoverrun hsource hrun
  obtain ⟨b, c1, hb, hrun⟩ := bind_ok.mp hrun
  cases b with
  | true =>
      obtain ⟨hoverrun1, hrest1, -⟩ := Echoes.acceptKeyword (n := 0)
        (N := [.ofKeyword .maxvalue]) rfl c true c1 hoverrun hsource hb
      obtain ⟨rfl, rfl⟩ := pure_ok.mp hrun
      have hword : Prints ctx "MAXVALUE" [.ofKeyword .maxvalue] := .keyword .maxvalue
      have hmax := hword.enclosed
      refine ⟨hoverrun1, hrest1, _, ⟨rfl, hmax⟩, fun K _ => ⟨trivial, fun d hd => ?_⟩⟩
      -- a bare `MAXVALUE` prints in parentheses, which are read as a list of one value
      obtain ⟨d', hd', hfaces⟩ : ∃ d', parseValues ctx d = .ok ["MAXVALUE"] d' ∧ _ :=
        parseValues_maxvalue hd
      refine ⟨d', ?_, hfaces⟩
      have hpeek := (Faces.next (P := [.lparen]) hd rfl).1
      have haccept : acceptKeyword .maxvalue ctx d = .ok false d := by
        rw [acceptKeyword, acceptWord_run, if_neg]
        simp [hasKeyword, hpeek]
      exact bind_ok.mpr ⟨false, d, haccept, bind_ok.mpr ⟨_, d', hd', pure_ok.mpr ⟨rfl, rfl⟩⟩⟩
  | false =>
      obtain ⟨hoverrun', hrest, P, hP, hreplay⟩ :=
        hlisted c found c' hoverrun hsource (bind_ok.mpr ⟨false, c1, hb, hrun⟩)
      refine ⟨hoverrun', hrest, P, hP, fun K hK => ⟨trivial, fun d hd => ?_⟩⟩
      obtain ⟨d', hd', hfaces⟩ := (hreplay K hK).2 d hd
      obtain ⟨b, d1, hb, hd'⟩ := bind_ok.mp hd'
      cases b with
      | true => exact absurd hd' expected_ne_ok
      | false => exact ⟨d', bind_ok.mpr ⟨false, d1, hb, hd'⟩, hfaces⟩

/-- The bound of a partition is printed with its words, or as nothing. -/
theorem parseBound_echoes : Echoes ctx parseBound (fun found P => Prints ctx (boundText found) P)
    (fun _ => Anything) (Shadows 2) := by
  have hless : Leads ctx "LESS THAN " [.ofKeyword .less, .space, .ofKeyword .than, .space] :=
    (Prints.keyword .less).leads.append_leads (Prints.keyword .than).leads
  have hin : Leads ctx "IN " [.ofKeyword .in, .space] := (Prints.keyword .in).leads
  refine .keywords_test (n := 0)
    (N := [.ofKeyword .less, .space, .ofKeyword .than, .space]) rfl
    (parseLimit_echoes.mono (fun found P ⟨hbound, hP⟩ => ?_) (fun _ _ _ h => h)
      fun _ _ _ => shadows_zero)
    (.keyword_behind (N := [.ofKeyword .in, .space]) rfl
      (parseValues_echoes.bind fun values P hP => .pure ?_ fun _ _ h => h))
  · refine (hless.append hP.toPrints).of_eq ?_ rfl
    simp [boundText, boundWords, hbound, String.append_assoc]
    rfl
  · refine (hin.append hP.toPrints).of_eq ?_ (by simp)
    simp [boundText, boundWords, String.append_assoc]
    rfl

/-! ### Engines -/

/-- The word in front of `ENGINE`. -/
def isStorage (t : Token) : Bool := spelled "STORAGE" { token := t }

/-- What a partition looks at behind its name and its values. -/
structure EngineAlike (T T' : List Token) : Prop where
  storage : isStorage (frontOf T') = true → isStorage (frontOf T) = true
  engine  : (frontOf T').keyword? = some .engine → (frontOf T).keyword? = some .engine
  values  : (frontOf T').keyword? = some .values → (frontOf T).keyword? = some .values

/-- What stands behind a partition. -/
def EndsPartition : TokenRel := fun _ T' => (frontOf T').isWord = false

/-- Where a partition ends no engine is named. -/
theorem EngineAlike.of_ends (h : EndsPartition T T') : EngineAlike T T' := by
  have hkeyword : (frontOf T').keyword? = none := by
    cases hT : frontOf T' <;> first | rfl | simp [EndsPartition, hT, Token.isWord] at h
  refine ⟨fun hstorage => ?_, fun hengine => ?_, fun hvalues => ?_⟩
  · cases hT : frontOf T' <;>
      simp [isStorage, spelled, EndsPartition, hT, Token.isWord] at h hstorage
  · simp [hkeyword] at hengine
  · simp [hkeyword] at hvalues

/-- The equals sign in front of an engine is printed if it was read. -/
theorem parseEngineName_echoes (storage : Bool) : Echoes ctx (parseEngineName storage)
    (fun o P => ∃ equals name, o = some ⟨storage, equals, name⟩ ∧
      Trails ctx (equalsText equals ++ " " ++ name.text) P) (fun _ => Shadows n)
    (Shadows (n + 1)) :=
  acceptEquals_echoes.bind fun equals P hequals => Ident.parse_echoes.spaced.bind
    fun name P' ⟨P'', hP', hname⟩ => .pure ⟨equals, name, rfl,
      (hequals.append hname.trails).of_eq (by simp [String.append_assoc]) (by simp [hP'])⟩
        fun _ _ h => h

/-- The word `STORAGE` in front of `ENGINE` is printed if it was read. -/
theorem parseEngine_echoes : Echoes ctx parseEngine
    (fun o P => Trails ctx (o.elim "" PartitionEngine.text) P) (fun _ => EndsPartition)
    EngineAlike := by
  have hstorage : Prints ctx "STORAGE" [.bare "STORAGE"] :=
    ⟨rfl, fun Q hQ => (spelled_bare (.of_letters (by decide) (by decide))).1.legible_cons hQ⟩
  have hkeyword : (Token.bare "STORAGE").keyword? = none := by decide +kernel
  have hengine : isStorage (.ofKeyword .engine) = false := by decide +kernel
  refine (Echoes.acceptSpelling (t := .bare "STORAGE") (N := [.space, .bare "STORAGE"])
    (Q := Shadows 1) (S := EngineAlike) rfl (by decide +kernel)
    (fun t T T' ht _ => ⟨fun _ => ht, ?_, ?_⟩) fun _ _ h => h.storage).bind fun b P hP => ?_
  · simp [hkeyword]
  · simp [hkeyword]
  subst hP
  cases b with
  -- `STORAGE ENGINE`, else `ENGINE` alone or no engine
  | true =>
      refine .keyword_behind (k := .engine) (N := [.space, .ofKeyword .engine]) rfl
        ((parseEngineName_echoes true (n := 0)).mono ?_ (fun _ _ _ _ => shadows_zero)
          fun _ _ _ => shadows_zero)
      rintro _ P ⟨equals, name, rfl, hP⟩
      refine (hstorage.trails.append ((Prints.keyword .engine).trails.append hP)).of_eq ?_ rfl
      simp [PartitionEngine.text, String.append_assoc]
      rfl
  | false =>
      refine .keyword_test_of (k := .engine) (N := [.space, .ofKeyword .engine]) (Q := Shadows 1)
        rfl (fun t T T' ht hk _ => ⟨?_, fun _ => hk, ?_⟩) (fun _ _ h => h.engine)
        ((parseEngineName_echoes false (n := 0)).mono ?_ (fun _ _ _ _ => shadows_zero)
          fun _ _ h => h)
        (.pure .nil fun _ _ => .of_ends)
      · simp [hengine]
      · simp [Expr.keyword?_ofKeyword]
      · rintro _ P ⟨equals, name, rfl, hP⟩
        refine ((Prints.keyword .engine).trails.append hP).of_eq ?_ rfl
        simp [PartitionEngine.text, String.append_assoc]
        rfl

/-- A partition is a name, perhaps a bound and perhaps an engine. -/
theorem parse_echoes : Echoes ctx parse (fun partition P => Prints ctx partition.text P)
    (fun _ => EndsPartition) (Shadows 2) := by
  -- the engine comes last, whether or not there is a bound
  have hengine : ∀ (partition : PartitionDefinition) (P : List Token), partition.engine = none →
      Prints ctx partition.text P → Echoes ctx (do
        return { partition with engine := ← parseEngine } : Parser PartitionDefinition)
        (fun partition P' => Prints ctx partition.text (P ++ P')) (fun _ => EndsPartition)
        EngineAlike := by
    intro partition P hnone hP
    refine parseEngine_echoes.bind fun engine P' hengine => .pure ?_ fun _ _ h => h
    refine (hP.append hengine).of_eq ?_ (by simp)
    cases engine <;> simp [text, chunks, hnone, String.append_assoc]
  refine .keyword_behind (k := .partition) (N := [.ofKeyword .partition, .space]) rfl <|
    Echoes.bind (R := fun _ => EngineAlike)
      (Ident.parse_echoes.behind fun _ _ _ _ => shadows_zero) fun name P hname => ?_
  have hlead : Prints ctx ("PARTITION " ++ name.text) (.ofKeyword .partition :: .space :: P) :=
    (Prints.keyword .partition).leads.append hname
  have hvalues : isStorage (.ofKeyword .values) = false := by decide +kernel
  refine .keyword_test_of (k := .values) (N := [.space, .ofKeyword .values, .space])
    (Q := Shadows 2) (S := EngineAlike) rfl
    (fun t T T' ht hk _ => ⟨?_, ?_, fun _ => hk⟩) (fun _ _ h => h.values)
    (parseBound_echoes.bind ?_)
    (.bind (.pure (F := fun partition P' => partition = { name } ∧ P' = [])
      (R := fun _ => EngineAlike) ⟨rfl, rfl⟩ fun _ _ h => h) ?_)
  · simp [hvalues]
  · simp [Expr.keyword?_ofKeyword]
  · rintro ⟨bound, values⟩ P' hbound
    have htail := ((Prints.keyword .values).leads.append hbound).trails
    have hP : Prints ctx (text { name, bound := some bound, values }) _ :=
      (hlead.append htail).of_eq (by cases bound <;> simp [text, chunks, PartitionBound.text,
        boundText, boundWords, String.append_assoc] <;> rfl) rfl
    refine (hengine _ _ rfl hP).mono (fun partition P'' h => h.of_eq rfl (by simp))
      (fun _ _ _ h => h) fun _ _ _ => trivial
  · rintro _ _ ⟨rfl, rfl⟩
    refine (hengine { name } _ rfl (hlead.of_eq ?_ rfl)).print fun partition P' h =>
      h.of_eq rfl (by simp)
    simp [text, chunks]

/-- Partitions in parentheses. -/
theorem parseList_echoes : Echoes ctx parseList
    (fun partitions P => partitions ≠ [] ∧
      Trails ctx ("(" ++ Text.Chunks.text (listChunks partitions) ++ ")") P)
    (fun _ => Anything) (Shadows n) := by
  refine (Echoes.parenthesizedList (S := Shadows 2) parse_echoes parse_local
    (fun _ T T' h => ?_) fun _ _ h => h.mono (by omega)).print
    fun partitions P ⟨parts, hparts, hne, hP⟩ => ⟨hne, hP ▸ (Prints.listing_chunks hparts).enclosed⟩
  cases h with
  | further => rfl
  | last _ h =>
      obtain ⟨U, U', -, rfl⟩ := h
      rfl
  | comma h => cases h

/-- Partitions in parentheses behind a space. -/
theorem parseList_trailing : Echoes ctx parseList
    (fun partitions P => Trails ctx
      (" " ++ ("(" ++ Text.Chunks.text (listChunks partitions) ++ ")")) P)
    (fun _ => Anything) (Shadows n) :=
  .trailing (parseList_echoes.print fun _ _ h => h.2.toPrints)

end PartitionDefinition

/-! ## Partitionings -/

namespace Partitioning

/-- The method is one of four keywords. -/
theorem parseMethod_echoes : Echoes ctx parseMethod (fun method P => Prints ctx method.text P)
    (fun _ => Shadows n) (Shadows (n + 1)) := by
  refine (Echoes.expectOneOf (W := fun k => [.ofKeyword k]) fun _ _ => rfl).bind
    fun k P ⟨hP, hk⟩ => ?_
  subst hP
  simp only [List.mem_cons, List.not_mem_nil, or_false] at hk
  rcases hk with rfl | rfl | rfl | rfl
  · exact .pure (.keyword .range) fun _ _ h => h
  · exact .pure (.keyword .list) fun _ _ h => h
  · exact .pure (.keyword .hash) fun _ _ h => h
  · exact .pure (.keyword .key) fun _ _ h => h

/-- A key is printed in parentheses, with the word `COLUMNS` if it was read. -/
theorem parseKey_echoes (method : PartitionMethod) : Echoes ctx (parseKey method)
    (fun key P => Throughout Expr.Single key.contents →
      Trails ctx (Text.Chunks.text key.chunks) P) (fun _ => Anything) (Shadows (n + 1)) := by
  refine .keyword_test (k := .columns) (N := [.space, .ofKeyword .columns]) rfl ?_
    (.ite (fun _ => ?_) fun _ => ?_)
  · refine Ident.parseList_echoes.bind fun names P hnames => .pure (fun _ => ?_) fun _ _ h => h
    obtain ⟨-, hP⟩ := hnames
    refine ((Prints.keyword .columns).append hP).trails.of_eq ?_ (by simp)
    simp [PartitionKey.chunks, String.append_assoc]
    rfl
  · refine (Ident.parseList_echoes.spaced).bind fun names P hnames =>
      .pure (fun _ => ?_) fun _ _ h => h
    obtain ⟨P', hP', -, hP⟩ := hnames
    refine hP.trails.of_eq ?_ (by simp [hP'])
    simp [PartitionKey.chunks, String.append_assoc]
    rfl
  · refine Expr.enclosed_echoes.spaced.bind fun e P henclosed =>
      .pure (fun hsingle => ?_) fun _ _ h => h
    obtain ⟨_, hP, P', hP', he⟩ := henclosed
    refine (he hsingle).enclosed.trails.of_eq ?_ (by simp [hP, hP'])
    simp [PartitionKey.chunks, Expr.text, String.append_assoc]
    rfl

/-- The text of a partitioning behind `PARTITION BY`. -/
def tail (partitioning : Partitioning) : String :=
  (if partitioning.linear then "LINEAR " else "") ++ partitioning.method.text
    ++ Text.Chunks.text partitioning.key.chunks
    ++ (partitioning.count.elim "" fun count => " PARTITIONS " ++ toString count)
    ++ if partitioning.partitions.isEmpty then ""
      else " (" ++ Text.Chunks.text (PartitionDefinition.listChunks partitioning.partitions) ++ ")"

omit hd in
/-- The first words of a partitioning are always the same. -/
theorem text_eq (partitioning : Partitioning) :
    partitioning.text = "PARTITION BY " ++ partitioning.tail := by
  cases hcount : partitioning.count <;> cases hempty : partitioning.partitions.isEmpty <;>
    simp [text, chunks, tail, hcount, hempty, String.append_assoc]

/-- A partitioning is printed from its method to its list of partitions. -/
theorem parse_echoes : Echoes ctx parse
    (fun partitioning P => Written ctx partitioning.key.contents partitioning.tail P)
    (fun _ => Shadows 1) (Shadows (n + 3)) := by
  refine (Echoes.acceptKeyword (n := n + 2) (k := .linear)
    (N := [.ofKeyword .linear, .space]) rfl).bind fun linear P₁ hP₁ => ?_
  have hlinear : Leads ctx (if linear then "LINEAR " else "") P₁ := by
    subst hP₁
    cases linear with
    | false => exact .nil
    | true => exact (Prints.keyword .linear).leads
  -- `LINEAR` takes one token of the lookahead, if it is there
  have hahead : ∀ T T', Shadows (n + 3) T T' →
      (if linear then Shadows (n + 2) else Shadows (n + 2 + 1)) T T' := fun T T' h => by
    cases linear with
    | false => exact h
    | true => exact h.mono (by omega)
  refine (parseMethod_echoes.front hahead).bind fun method P₂ hmethod =>
    (parseKey_echoes method).bind fun key P₃ hkey => ?_
  -- the number and the definitions are optional: each is put on what stands in front
  have hresult : ∀ (count : Option Nat) (partitions : List PartitionDefinition)
      (P₄ P₅ : List Token),
      Trails ctx (count.elim "" fun count => " PARTITIONS " ++ toString count) P₄ →
      Trails ctx (if partitions.isEmpty then ""
        else " (" ++ Text.Chunks.text (PartitionDefinition.listChunks partitions) ++ ")") P₅ →
      Echoes ctx (return { linear, method, key, count, partitions } : Parser Partitioning)
        (fun partitioning P => Written ctx partitioning.key.contents partitioning.tail
          (P₁ ++ (P₂ ++ (P₃ ++ (P₄ ++ (P₅ ++ P)))))) (fun _ => Shadows 1) (Shadows 1) :=
    fun count partitions P₄ P₅ hcount hpartitions => .pure (fun hsingle =>
      (hlinear.append (hmethod.append ((hkey hsingle).append (hcount.append hpartitions)))).of_eq
        (by simp [tail, String.append_assoc]) (by simp)) fun _ _ h => h
  -- definitions are read if a parenthesis is ahead
  have hpartitions : ∀ (count : Option Nat) (P₄ : List Token),
      Trails ctx (count.elim "" fun count => " PARTITIONS " ++ toString count) P₄ →
      Echoes ctx (do
        let partitions ← if (← peek).token = .lparen then PartitionDefinition.parseList else pure []
        return { linear, method, key, count, partitions } : Parser Partitioning)
        (fun partitioning P => Written ctx partitioning.key.contents partitioning.tail
          (P₁ ++ (P₂ ++ (P₃ ++ (P₄ ++ P))))) (fun _ => Shadows 1) (Shadows 1) := by
    intro count P₄ hcount
    refine .peek (fun l l' hrole => ?_) (fun l => ?_) fun _ _ h => h
    · have hparen : (l.token = .lparen) = (l'.token = .lparen) :=
        propext (Token.eq_sign_of_role hrole trivial)
      simp only [hparen]
    · dsimp only
      refine .ite (fun _ => PartitionDefinition.parseList_echoes.spaced.bind
          fun partitions P₅ ⟨P', hP', hne, hP⟩ =>
          (hresult count partitions P₄ P₅ hcount ?_).front fun _ _ _ => trivial)
        fun _ => .bind (.pure (F := fun partitions P₅ => partitions = [] ∧ P₅ = [])
          (R := fun _ => Shadows 1) ⟨rfl, rfl⟩ fun _ _ h => h) ?_
      · rw [if_neg (by simpa using hne)]
        exact hP.trails.of_eq (by simp [String.append_assoc]; rfl) hP'.symm
      · rintro _ _ ⟨rfl, rfl⟩
        exact hresult count [] P₄ [] hcount .nil
  refine Echoes.front (S := Shadows 1) ?_ fun _ _ _ => trivial
  refine .keyword_test (n := 0) (k := .partitions)
    (N := [.space, .ofKeyword .partitions, .space]) rfl ?_
    (.bind (.missing (g := fun count : Nat => " PARTITIONS " ++ toString count)) hpartitions)
  have hcount : Echoes ctx (some <$> Literal.parseCount)
      (fun o P => Trails ctx (o.elim "" fun count => " PARTITIONS " ++ toString count)
        ([.space, .ofKeyword .partitions, .space] ++ P)) (fun _ => Anything) (Shadows 0) :=
    .map <| Literal.parseCount_echoes.print fun count P ⟨_, hP⟩ =>
      ((Prints.keyword .partitions).leads.append hP).trails.of_eq rfl (by simp)
  exact hcount.bind fun count P₄ hP₄ => ((hpartitions count _ hP₄).print
    fun partitioning P h hsingle => (h hsingle).of_eq rfl (by simp)).front fun _ _ _ => trivial

end Partitioning

end SchemaSql
