import SchemaSql.Proofs.Rereading.Captures
import SchemaSql.Proofs.Rereading.Expressions

/-! # Echoes of data types and columns

    The name of a type is printed with the words that it was read from and a space between two
    of them.  A type that is inside another one stands between angle brackets, in front of which
    words end as they do in front of a space. -/

namespace SchemaSql

open Cursor SchemaSql.Parser

variable {ctx : Context} {n : Nat} {ts K P : List Token} {ks : List Keyword}

/-! ## Keywords as they are written -/

/-- Tokens with a space in front of each. -/
def afterSpaces (ts : List Token) : List Token := ts.flatMap fun t => [.space, t]

@[simp] theorem afterSpaces_nil : afterSpaces [] = [] := rfl

@[simp] theorem afterSpaces_cons (t : Token) (ts : List Token) :
    afterSpaces (t :: ts) = .space :: t :: afterSpaces ts := rfl

/-- The tokens are words, and they are read back. -/
def AllWords (ctx : Context) (ts : List Token) : Prop :=
  ∀ t ∈ ts, t.isWord = true ∧ t.Lucid ctx.dialect ctx.options.unescape

/-- Words are no blanks, so leaving out the spaces leaves them. -/
theorem AllWords.solid (h : AllWords ctx ts) : solid (afterSpaces ts) = ts := by
  induction ts with
  | nil => rfl
  | cons t ts ih =>
      obtain ⟨ht, hts⟩ := List.forall_mem_cons.mp h
      simp [ht.2.solid, ih hts]

/-- Words are written with one space between each two. -/
theorem text_words (t : Token) (ts : List Token) :
    Token.textOf (t :: afterSpaces ts) = " ".intercalate ((t :: ts).map Token.text) := by
  induction ts generalizing t with
  | nil => simp
  | cons t' ts ih =>
      rw [afterSpaces_cons, Token.textOf_cons, Token.textOf_cons, ih]
      simp only [List.map_cons, String.intercalate_cons_cons, String.append_assoc]
      rfl

/-- Words are read back in front of everything that no word goes on into. -/
theorem legible_words [ctx.dialect.Regular] {t : Token} (h : AllWords ctx (t :: ts))
    (hK : ∀ w, (Token.word w).StopsAt ctx.dialect K) :
    Legible ctx.dialect ctx.options.unescape (t :: (afterSpaces ts ++ K)) ↔
      Legible ctx.dialect ctx.options.unescape K := by
  obtain ⟨⟨hword, ht⟩, hts⟩ := List.forall_mem_cons.mp h
  induction ts generalizing t with
  | nil =>
      refine ⟨fun h => h.2.2, fun h => ⟨ht.spelled, ?_, h⟩⟩
      cases t with
      | word w => exact hK w
      | _ => cases hword
  | cons t' ts ih =>
      obtain ⟨⟨hword', ht'⟩, hts'⟩ := List.forall_mem_cons.mp hts
      rw [afterSpaces_cons, List.cons_append, ht.spelled.legible_cons ends_space, legible_space]
      exact ih hts hts' hword' ht'

/-- AllWords that were found make up what they were found in. -/
theorem takeWords_found {w w' found : List Located} (hw : Clean w)
    (h : takeWords (ks.map some) w = some (found, w')) :
    solid (w.map Located.token) = found.map Located.token ++ solid (w'.map Located.token) ∧
      found.map (fun l => l.token.keyword?) = ks.map some := by
  induction ks generalizing w found with
  | nil =>
      obtain ⟨rfl, rfl⟩ := Prod.mk.inj (Option.some.inj h)
      exact ⟨rfl, rfl⟩
  | cons k ks ih =>
      cases w with
      | nil => cases h
      | cons l w =>
          have hl : l.token.isWhitespace = false := clean_cons.mp hw
          simp only [List.map_cons, takeWords] at h
          split at h
          · next hk =>
            obtain ⟨⟨found, w'⟩, hfound, heq⟩ := Option.map_eq_some_iff.mp h
            obtain ⟨rfl, rfl⟩ := Prod.mk.inj heq
            obtain ⟨hsolid, hkeywords⟩ := ih (clean_dropWhile w) hfound
            rw [map_dropWhile, solid_dropWhile] at hsolid
            exact ⟨by simp [hl, hsolid], by simp [hkeywords, Denotes.hasKeyword_iff.mp hk]⟩
          · cases h

/-- Printed words are found again. -/
theorem takeWords_afterSpaces {w : List Located} (hts : ts.map Token.keyword? = ks.map some)
    (hw : w.map Located.token = (afterSpaces ts ++ K).dropWhile Token.isWhitespace) :
    ∃ found r, takeWords (ks.map some) w = some (found, r) ∧ found.map Located.token = ts ∧
      r.map Located.token = K.dropWhile Token.isWhitespace := by
  induction ts generalizing ks w with
  | nil =>
      obtain rfl : ks = [] := by simpa using hts.symm
      exact ⟨[], w, rfl, rfl, hw⟩
  | cons t ts ih =>
      cases ks with
      | nil => cases hts
      | cons k ks =>
          obtain ⟨hk, hks⟩ := List.cons.inj hts
          have ht : t.isWhitespace = false := by
            -- only a word has a keyword
            cases t <;> first | rfl | cases hk
          rw [afterSpaces_cons, List.cons_append, List.cons_append,
            List.dropWhile_cons_of_pos isWhitespace_space,
            List.dropWhile_cons_of_neg (by simp [ht])] at hw
          obtain ⟨l, w', rfl, rfl, hw'⟩ := List.map_eq_cons_iff.mp hw
          obtain ⟨found, r, hfound, hmap, hr⟩ :=
            ih hks (w := w'.dropWhile Located.isWhitespace) (by rw [map_dropWhile, hw'])
          refine ⟨l :: found, r, ?_, by simp [hmap], hr⟩
          rw [List.map_cons, takeWords, if_pos (Denotes.hasKeyword_iff.mpr hk), hfound]
          rfl

namespace Echoes

/-- Keywords that may stand next, with their spelling. -/
theorem acceptKeywordsAsWritten (ks : List Keyword) : Echoes ctx (Parser.acceptKeywordsAsWritten ks)
    (fun o P => o.elim (P = []) fun s => ∃ ts, P = afterSpaces ts ∧ AllWords ctx ts ∧
      s = " ".intercalate (ts.map Token.text) ∧ ts.length = ks.length)
    (fun o => if o.isSome then Shadows n else Shadows (n + ks.length))
    (Shadows (n + ks.length)) := by
  intro c o c' hoverrun hsource hrun
  have hwords := acceptKeywordsAsWritten_words ks ctx c.rest c (at_rest hoverrun)
  have hsolid := takeWords_solid ks c.clean_rest
  rw [solidTokens_eq] at hsolid
  cases htake : takeWords (ks.map some) c.rest with
  | none =>
      rw [htake] at hwords hsolid
      obtain ⟨rfl, rfl⟩ := EStateM.Result.ok.inj (hwords.symm.trans hrun)
      refine ⟨hoverrun, List.suffix_refl _, [], rfl, fun K hK => ⟨hK, fun d hd => ⟨d, ?_, hd⟩⟩⟩
      -- the printed words are taken in turn, each behind its space
      have hagain := acceptKeywordsAsWritten_words ks ctx d.rest d (at_rest hd.overrun)
      -- the words are not ahead of the printed text either, because its front has the same roles
      have hnone : takeWords (ks.map some) d.rest = none := by
        have hd' := takeWords_solid ks d.clean_rest
        rw [solidTokens_eq] at hd'
        have hdrop : dropWords ks d.coming = none := by
          rw [hd.coming]
          exact dropWords_none hK hsolid.symm
        rw [← Option.map_eq_none_iff, hd']
        exact hdrop
      rwa [hnone] at hagain
  | some p =>
      obtain ⟨found, w'⟩ := p
      rw [htake] at hwords
      obtain ⟨c1, hrun', hat⟩ := hwords
      obtain ⟨rfl, rfl⟩ := EStateM.Result.ok.inj (hrun'.symm.trans hrun)
      obtain ⟨hfound, hkeywords⟩ := takeWords_found c.clean_rest htake
      obtain ⟨-, used, hused, -⟩ := takeWords_split c.clean_rest htake
      have hlength : (found.map Located.token).length = ks.length := by
        simpa using congrArg List.length hkeywords
      have hts : (found.map Located.token).map Token.keyword? = ks.map some := by
        simpa [Function.comp_def] using hkeywords
      have hsource' := hsource.coming
      rw [coming, hfound] at hsource'
      -- each found token has a keyword, so it is a word, and it comes from the source
      have hall : AllWords ctx (found.map Located.token) := by
        intro t ht
        refine ⟨?_, hsource' t (List.mem_append_left _ ht)⟩
        obtain ⟨k, -, hk⟩ := List.mem_map.mp (hts ▸ List.mem_map_of_mem ht)
        cases t <;> first | rfl | cases hk
      refine ⟨hat.overrun, ?_, _, ⟨_, rfl, hall, by simp [Function.comp_def], hlength⟩,
        fun K hK => ⟨?_, fun d hd => ?_⟩⟩
      · rw [hat.rest, hused]
        exact List.suffix_append _ _
      · have hcoming : c1.coming = solid (w'.map Located.token) := by rw [coming, hat.rest]
        rw [coming, hfound, solid_append, hall.solid, ← hlength]
        exact (hcoming ▸ hK).append _
      · have hagain := acceptKeywordsAsWritten_words ks ctx d.rest d (at_rest hd.overrun)
        obtain ⟨found', r, htake', hmap, hr⟩ := takeWords_afterSpaces hts hd.rest
        rw [htake'] at hagain
        obtain ⟨d', hd', hat'⟩ := hagain
        have htext : ∀ fs : List Located, fs.map (fun l => l.token.text) =
            (fs.map Located.token).map Token.text := by simp
        refine ⟨d', ?_, hat'.overrun, by rw [hat'.rest, hr]⟩
        rw [hd']
        dsimp only
        rw [htext, htext, hmap]

end Echoes

/-! ## Data types -/

/-- A word starts with a character that is not part of a longer sign. -/
theorem Token.Spelled.word_front {d : Dialect} [d.Regular] {u : Bool} {w : Word}
    (h : (Token.word w).Spelled d u) : ∀ x ∈ (Token.word w).text.toList.head?,
      x ≠ '=' ∧ x ≠ '>' := by
  obtain ⟨c, cs, htext, hscan⟩ := h
  have hrun := hscan [] (by simp)
  rw [List.append_nil] at hrun
  -- a sign that scans to another token is no word
  have hne : c ∈ Token.signStarts → c ≠ '-' → c ≠ '/' → (Token.scanSign c cs).1 ≠ .word w →
      False := fun hc hminus hslash hword => by
    rw [Token.scan_sign hc cs (fun h => absurd h hminus) (fun h => absurd h hslash)] at hrun
    exact hword (by rw [Except.ok.inj hrun])
  intro x hx
  obtain rfl : c = x := by simpa [htext] using hx
  constructor
  · rintro rfl
    refine hne (by decide) (by decide) (by decide) ?_
    unfold Token.scanSign
    split <;> exact nofun
  · rintro rfl
    refine hne (by decide) (by decide) (by decide) ?_
    unfold Token.scanSign
    split <;> exact nofun

namespace DataType

/-- What may stand behind a type. -/
def ClosesType (P : List Token) : Prop := Ends P ∨ P.head? = some .gt

/-- The words of the name of a type. -/
structure PrintsName (ctx : Context) (name : String) (P : List Token) : Prop where
  text    : Token.textOf P = name
  word    : ∃ w P', P = .word w :: P'
  legible : ∀ Q, (∀ w, (Token.word w).StopsAt ctx.dialect Q) →
    (Legible ctx.dialect ctx.options.unescape (P ++ Q) ↔
      Legible ctx.dialect ctx.options.unescape Q)

/-- A printed type. -/
structure PrintsType (ctx : Context) (dataType : DataType) (P : List Token) : Prop where
  text    : Token.textOf P = dataType.text
  word    : ∃ w P', P = .word w :: P'
  legible : ∀ Q, ClosesType Q → (Legible ctx.dialect ctx.options.unescape (P ++ Q) ↔
    Legible ctx.dialect ctx.options.unescape Q)

/-- A type may be printed where an end stands behind it. -/
theorem PrintsType.prints {dataType : DataType} (h : PrintsType ctx dataType P) :
    Prints ctx dataType.text P := ⟨h.text, fun Q hQ => h.legible Q (.inl hQ)⟩

/-- The first of several runs of words. -/
theorem parseContinuation_echoes {words : List (List Keyword)}
    (hwords : ∀ ks ∈ words, 0 < ks.length ∧ ks.length ≤ 3) : Echoes ctx (parseContinuation words)
      (fun o P => o.elim (P = []) fun s => ∃ t ts, P = afterSpaces (t :: ts) ∧
        AllWords ctx (t :: ts) ∧ s = " ".intercalate ((t :: ts).map Token.text))
      (fun _ => Shadows (n + 3)) (Shadows (n + 3)) := by
  induction words with
  | nil => exact .pure rfl fun _ _ h => h
  | cons ks words ih =>
      obtain ⟨⟨hpos, hle⟩, hrest⟩ := List.forall_mem_cons.mp hwords
      have hlength : n + 3 - ks.length + ks.length = n + 3 := by omega
      have hahead : ∀ T T', Shadows (n + 3 - ks.length + ks.length) T T' → Shadows (n + 3) T T' :=
        fun T T' h => by rwa [hlength] at h
      refine ((Echoes.acceptKeywordsAsWritten ks).front hahead).bind fun o P hP => ?_
      rw [hlength]
      cases o with
      | none =>
          obtain rfl : P = [] := hP
          exact ih hrest
      | some s =>
          obtain ⟨ts, rfl, hts, rfl, hcount⟩ := hP
          cases ts with
          | nil => simp at hcount; omega
          | cons t ts =>
              exact .pure ⟨t, ts, by simp, hts, rfl⟩ fun _ _ h => h.mono (by omega)

/-- No name of a type takes more than three words behind its first one. -/
theorem continuations_length (name : String) :
    ∀ ks ∈ continuations name, 0 < ks.length ∧ ks.length ≤ 3 := by
  unfold continuations
  split <;> simp

/-- A name of several words is kept as they were written, so the print has the same words. -/
theorem parseName_echoes [ctx.dialect.Regular] : Echoes ctx parseName (PrintsName ctx)
    (fun _ => Shadows (n + 3)) (Shadows (n + 4)) := by
  refine .next (fun t => [t]) (fun l hl => ?_) (Fails.expected _ _)
  obtain ⟨t, loc⟩ := l
  cases t with
  | word w =>
      refine .inr ⟨_, rfl, ?_, ((parseContinuation_echoes (continuations_length w.text)).front
        fun T T' h => .cons rfl h).bind fun o P hP => ?_⟩
      · rintro ⟨_, loc'⟩ rfl d v d' h
        exact h
      -- a name of one word, or one of several, of which the rest is taken as it is written
      · cases o with
        | none =>
            obtain rfl : P = [] := hP
            exact .pure ⟨by simp [Token.text], ⟨w, [], rfl⟩, fun Q hQ => ⟨fun h => h.2.2, fun h =>
              ⟨hl.spelled, hQ w, h⟩⟩⟩ fun _ _ h => h
        | some s =>
            obtain ⟨t, ts, rfl, hts, rfl⟩ := hP
            have hall : AllWords ctx (.word w :: t :: ts) :=
              List.forall_mem_cons.mpr ⟨⟨rfl, hl⟩, hts⟩
            refine .pure ⟨?_, ⟨w, _, rfl⟩, fun Q hQ => ?_⟩ fun _ _ h => h
            · have htext := text_words (.word w) (t :: ts)
              simp only [List.map_cons, String.intercalate_cons_cons] at htext
              rw [List.append_nil]
              exact htext
            · have := legible_words hall hQ
              simpa using this
  | _ => exact .inl (Fails.expected _ _)

/-- No word goes on into what may stand behind a type. -/
theorem ClosesType.stopsAt_word {d : Dialect} [d.Regular] (h : ClosesType K) (w : Word) :
    (Token.word w).StopsAt d K := by
  rcases h with h | h
  · exact h.stopsAt _
  · obtain ⟨K, rfl⟩ := List.head?_eq_some_iff.mp h
    intro x hx _
    obtain rfl : x = '>' := by simpa [Token.text] using hx.symm
    exact (Dialect.Regular.sign '>' (by decide)).2

/-- The arguments of a type are captured with their parentheses and printed as they are. -/
theorem parseArguments_echoes [ctx.dialect.Regular] : Echoes ctx parseArguments
    (fun args P => Leads ctx (argumentsText args) P ∧ (P = [] ∨ P.head? = some .space))
    (fun _ => Shadows (n + 1)) (Shadows (n + 1)) := by
  refine .accept_test (s := .lparen) (N := [.space, .lparen]) trivial rfl ?_
    (.pure ⟨.nil, .inl rfl⟩ fun _ _ h => h)
  refine ((Echoes.commaSeparatedWith (S := Shadows 1) (E := Facing .rparen)
    (valueText_echoes (n := 0)) valueText_local (fun _ _ _ h => h.shadows) (fun _ _ h => h)
    ?_).front fun _ _ _ => trivial).bind fun args P hP => .after
      (.expect (N := [.rparen]) trivial rfl) (.pure ⟨?_, .inr rfl⟩ fun _ _ _ => trivial)
  · rintro _ _ ⟨U, U', -, rfl⟩
    exact nofun
  · obtain ⟨parts, hparts, rfl, hne⟩ := hP
    have hlist : Prints ctx (Text.commaSeparated args) (listed parts) := by
      simpa using Prints.listing (g := id) hparts
    refine ⟨?_, fun Q => by simp [hlist.legible]⟩
    have htext : argumentsText args = " (" ++ Text.commaSeparated args ++ ")" := by
      rw [argumentsText, if_neg (by simpa using hne)]
    simp [htext, hlist.text, String.append_assoc]
    rfl

/-- Between a type and what closes it there may be something that starts with a space. -/
theorem ClosesType.append (h : ClosesType K) (hP : P = [] ∨ P.head? = some .space) :
    ClosesType (P ++ K) := by
  rcases hP with rfl | hP
  · exact h
  · obtain ⟨P, rfl⟩ := List.head?_eq_some_iff.mp hP
    exact .inl ends_space

section

variable {d : Dialect} [d.Regular] {u : Bool}

/-- An opening bracket ends in front of a word. -/
theorem legible_lt (hP : ∃ w P', P = .word w :: P') :
    Legible d u (.lt :: (P ++ K)) ↔ Legible d u (P ++ K) := by
  obtain ⟨w, P, rfl⟩ := hP
  refine ⟨fun h => h.2.2, fun h => ⟨Token.spelled_of_isSign trivial, fun x hx => ?_, h⟩⟩
  obtain ⟨c, cs, htext, -⟩ := h.1
  refine h.1.word_front x ?_
  rw [htext]
  simpa [htext] using hx

/-- A closing bracket ends in front of what may stand behind a type. -/
theorem legible_gt (hK : ClosesType K) : Legible d u (.gt :: K) ↔ Legible d u K := by
  refine ⟨fun h => h.2.2, fun h => ⟨Token.spelled_of_isSign trivial, fun x hx => ?_, h⟩⟩
  show x ≠ '='
  rcases hK with hK | hK
  · rcases hK.head hx with rfl | rfl | rfl | rfl <;> decide
  · obtain ⟨K, rfl⟩ := List.head?_eq_some_iff.mp hK
    obtain rfl : x = '>' := by simpa [Token.text] using hx.symm
    decide

end

/-- By induction on the levels of nesting. -/
theorem parseAt_echoes [ctx.dialect.Regular] (depth : Nat) : Echoes ctx (parseAt depth)
    (PrintsType ctx) (fun _ => Shadows (n + 3)) (Shadows (n + 4)) := by
  induction depth generalizing ctx n with
  | zero => exact .throw _
  | succ depth ih =>
      refine .descend fun levels => .print (F := PrintsType { ctx with depth := levels }) ?_
        fun _ _ h => ⟨h.text, h.word, h.legible⟩
      have : { ctx with depth := levels }.dialect.Regular := ‹ctx.dialect.Regular›
      refine parseName_echoes.bind fun name P hname =>
        .accept_test (s := .lt) (N := [.lt]) trivial rfl ?_ ?_
      -- the element type of an array is read one level down and ends at its `>`
      · have helement : Echoes { ctx with depth := levels } (parseAt depth)
            (PrintsType { ctx with depth := levels }) (fun _ => Facing .gt)
            Anything := (ih (n := 0)).mono (fun _ _ h => h)
              (fun _ _ _ => Facing.shadows (s := .gt) trivial) fun _ _ _ => trivial
        refine helement.bind fun element P' helement => .after (.expect (N := [.gt]) trivial rfl)
          (((parseArguments_echoes (n := n)).front fun _ _ _ => trivial).bind fun args P'' hargs =>
            .pure ⟨?_, ?_, fun Q hQ => ?_⟩ fun _ _ h => h.mono (by omega))
        · simp [hname.text, helement.text, hargs.1.text, text, String.append_assoc, Token.text]
        · obtain ⟨w, P₀, rfl⟩ := hname.word
          exact ⟨w, _, rfl⟩
        -- a `<` ends any word in front of it
        · have hopen : ∀ w, (Token.word w).StopsAt ctx.dialect
              (.lt :: (P' ++ .gt :: (P'' ++ Q))) := by
            intro w x hx _
            obtain rfl : x = '<' := by simpa [Token.text] using hx.symm
            exact (Dialect.Regular.sign '<' (by decide)).2
          have hclosed := hQ.append hargs.2
          have hlayout : P ++ ([Token.lt] ++ (P' ++ ([.gt] ++ (P'' ++ [])))) ++ Q =
              P ++ (.lt :: (P' ++ .gt :: (P'' ++ Q))) := by simp
          rw [hlayout, hname.legible _ hopen, legible_lt helement.word,
            helement.legible _ (.inr rfl), legible_gt hclosed, hargs.1.legible]
      · refine (parseArguments_echoes (n := n + 2)).bind fun args P' hargs =>
          .pure ⟨?_, ?_, fun Q hQ => ?_⟩ fun _ _ h => h
        · simp [hname.text, hargs.1.text, text]
        · obtain ⟨w, P₀, rfl⟩ := hname.word
          exact ⟨w, _, rfl⟩
        · rw [List.append_nil, List.append_assoc,
            hname.legible _ (hQ.append hargs.2).stopsAt_word, hargs.1.legible]

/-- A type is read from its text as it was read. -/
theorem parse_echoes [ctx.dialect.Regular] : Echoes ctx parse
    (fun dataType P => Prints ctx dataType.text P) (fun _ => Shadows (n + 3))
    (Shadows (n + 4)) := by
  exact .remaining <| (parseAt_echoes _).print fun _ _ h => h.prints

end DataType

/-! ## Columns -/

variable [hd : Fact (ctx.dialect ∈ Dialect.builtin)]

/-- The word behind another one, with the space in front of it. -/
def ColumnKeyword.trailer : ColumnKeyword → String
  | .none => ""
  | .column => " COLUMN"
  | .columns => " COLUMNS"

/-- The word in front of a column is printed with the space that it needs. -/
theorem ColumnKeyword.parse_echoes : Echoes ctx parse
    (fun keyword P => Trails ctx keyword.trailer P) (fun _ => Shadows (n + 1))
    (Shadows (n + 1)) :=
  .keyword_test (k := .column) (N := [.space, .ofKeyword .column]) rfl
    (.pure (Prints.keyword .column).trails fun _ _ h => h.mono (by omega)) <|
      .keyword_test (k := .columns) (N := [.space, .ofKeyword .columns]) rfl
        (.pure (Prints.keyword .columns).trails fun _ _ h => h.mono (by omega))
        (.pure .nil fun _ _ h => h)

namespace ColumnDefinition

theorem endsSpecs_role (t : Token) : endsSpecs t.role = endsSpecs t := by cases t <;> rfl

theorem lacksType_role (t : Token) : lacksType t.role = lacksType t := by cases t <;> rfl

/-- An entry of a specification that is one token. -/
def specFrom (found : Located) : Parser (Option String) :=
  if endsSpecs found.token ∨ found.token = .lparen then throw (.notAnOperator found)
  else return some found.token.text

/-- An entry of a specification that is one token is printed as its text. -/
theorem specFrom_echoes : Echoes ctx (next >>= specFrom)
    (fun o P => o.elim (P = []) fun spec => Trails ctx (" " ++ spec) P) (fun _ => Shadows n)
    (Shadows (n + 1)) := by
  refine .next (fun t => [.space, t]) (fun l hl => ?_) fun _ _ _ _ => throw_ne_ok
  unfold specFrom
  split
  · exact .inl fun _ _ _ _ => throw_ne_ok
  · next hspec =>
    refine .inr ⟨l.token, by simp [hl.solid], fun l' hl' d v d' h => ?_,
      .pure ?_ fun _ _ h => .cons rfl h⟩
    · rw [hl', if_neg hspec]
      exact h
    · exact (hl.prints.of_eq hl.printed rfl).trails

/-- A specification goes on until a token ends it; a parenthesis starts a captured group. -/
theorem spec_echoes : Echoes ctx (do
    let found ← peek
    if endsSpecs found.token then return none
    if found.token = .lparen then return some (← groupText)
    return some (← next).token.text)
    (fun o P => o.elim (P = []) fun spec => Trails ctx (" " ++ spec) P)
    (fun _ => Shadows (n + 1)) (Shadows (n + 1)) := by
  -- both tests look at the role of the next token only, which the printed text keeps
  have hends : ∀ T T', Shadows (n + 1) T T' →
      (endsSpecs (frontOf T) = true ↔ endsSpecs (frontOf T') = true) := fun T T' h => by
    rw [← endsSpecs_role, h.front, endsSpecs_role]
  have hgroup : ∀ T T', Shadows (n + 1) T T' → (frontOf T = .lparen ↔ frontOf T' = .lparen) :=
    fun T T' h => Token.eq_sign_of_role h.front trivial
  have hpeek : ∀ {c : Cursor} (k : Located → Parser (Option String)),
      (peek >>= k) ctx c = k c.peek ctx c := bind_run (peek_ok.mpr ⟨rfl, rfl⟩)
  -- the two tests in turn, each of them a split of what may be in front
  refine .split (fun t => endsSpecs t = true) (q := return none) (r := do
      if (← peek).token = .lparen then return some (← groupText)
      next >>= specFrom) (fun c hB => ?_) (fun c hB => ?_) (.pure rfl fun _ _ h => h)
    (.split (· = .lparen) (q := do return some (← groupText)) (r := next >>= specFrom)
      (fun c hB => ?_) (fun c hB => ?_) ?_
      ((specFrom_echoes (n := n)).behind fun _ _ _ h => h.mono (by omega))
      (fun T T' hB h => ⟨h, (hgroup T T' h).mp hB⟩)
      fun T T' hB h => ⟨h, mt (hgroup T T' h).mpr hB⟩)
    (fun T T' hB h => ⟨h, (hends T T' h).mp hB⟩) fun T T' hB h => ⟨h, mt (hends T T' h).mpr hB⟩
  · rw [hpeek, if_pos hB]
  · rw [hpeek, hpeek, if_neg hB]
    by_cases hparen : c.peek.token = .lparen
    · rw [if_pos hparen, if_pos hparen]
    · rw [if_neg hparen, if_neg hparen, bind_run (next_run ctx c), bind_run (next_run ctx c),
        specFrom, if_neg (not_or.mpr ⟨hB, hparen⟩)]
  · rw [hpeek, if_pos hB]
  · rw [hpeek, if_neg hB]
  · exact groupText_echoes.spaced.bind fun text P ⟨P', hP, htext⟩ =>
      .pure (by simpa [hP] using htext.trails) fun _ _ _ => trivial

/-- The entries of a specification are printed with a space in front of each. -/
theorem parseSpecs_echoes : Echoes ctx parseSpecs
    (fun specs P => Trails ctx (Text.Chunks.text (specs.map (" " ++ ·))) P)
    (fun _ => Shadows (n + 1)) (Shadows (n + 1)) :=
  (Echoes.many_alike spec_offers spec_echoes).print fun _ _ ⟨_, hparts, hP⟩ =>
    hP ▸ .flatten hparts

/-- The text of a column, taken apart into what its readers read. -/
theorem text_eq (column : ColumnDefinition) : column.text =
    column.keyword.lead ++ (column.name.text ++
      ((column.dataType.elim "" fun t => " " ++ t.text) ++
        Text.Chunks.text (column.specs.map (" " ++ ·)))) := by
  cases h : column.dataType <;> simp [text, chunks, h, String.append_assoc]

/-- A column is printed from its name, the type if there is one, and its specification. -/
theorem parse_echoes : Echoes ctx parse
    (fun column P => column.keyword = .none ∧ Prints ctx column.text P)
    (fun _ => Shadows (n + 3)) (Shadows (n + 4)) := by
  refine Ident.parse_echoes.bind fun name P hname => .peek (fun l l' hrole => ?_) (fun l => ?_)
    fun _ _ h => h.mono (by omega)
  · rw [← lacksType_role, hrole, lacksType_role]
  -- the rest is the same whether or not the column has a type
  · have hspecs : ∀ (dataType : Option DataType) (P' : List Token),
        Trails ctx (dataType.elim "" fun t => " " ++ t.text) P' →
        Echoes ctx (do return { name, dataType, specs := ← parseSpecs } : Parser ColumnDefinition)
          (fun column P'' => column.keyword = .none ∧ Prints ctx column.text (P ++ (P' ++ P'')))
          (fun _ => Shadows (n + 3)) (Shadows (n + 3)) := fun dataType P' htype =>
      parseSpecs_echoes.bind fun specs P'' hspecs => .pure ⟨rfl, by
        rw [text_eq]
        exact (hname.append (htype.append hspecs)).of_eq (by simp [ColumnKeyword.lead]) (by simp)⟩
        fun _ _ h => h
    have htype : Echoes ctx (some <$> DataType.parse)
        (fun o P => Trails ctx (o.elim "" fun t => " " ++ t.text) P) (fun _ => Shadows (n + 3))
        (Shadows (n + 3)) :=
      .map <| DataType.parse_echoes.spaced.mono (fun t P ⟨P', hP, ht⟩ => hP ▸ ht.trails)
        (fun _ _ _ h => h) fun _ _ h => h.mono (by omega)
    dsimp only
    exact .ite (fun _ => .bind (.pure .nil fun _ _ h => h) hspecs) fun _ => htype.bind hspecs

end ColumnDefinition

namespace ColumnAction

/-- What is done to a column is told by one or two words; a default may be any expression. -/
theorem parse_echoes : Echoes ctx parse
    (fun action P => Written ctx action.contents (Text.Chunks.text action.chunks) P)
    (fun _ => Shadows 3) (Shadows 3) := by
  have hword : ∀ {m} {action : ColumnAction} {N : List Token}, m ≤ 3 →
      Prints ctx (Text.Chunks.text action.chunks) N → Echoes ctx (return action)
        (fun action P => Written ctx action.contents (Text.Chunks.text action.chunks) (N ++ P))
        (fun _ => Shadows 3) (Shadows m) := fun hm hN =>
    .pure (fun _ => by simpa using hN) fun _ _ h => h.mono hm
  have hset : Leads ctx "SET " [.ofKeyword .set, .space] := (Prints.keyword .set).leads
  have hdrop : Leads ctx "DROP " [.ofKeyword .drop, .space] := (Prints.keyword .drop).leads
  have hnull : Prints ctx "NOT NULL" [.ofKeyword .not, .space, .ofKeyword .null] :=
    (Prints.keyword .not).leads.append (Prints.keyword .null)
  -- one test for each way an action starts, in the order in which the reader makes them
  refine .keyword_test (n := 2) (k := .type) (N := [.ofKeyword .type, .space]) rfl ?_ <|
    .keywords_test (n := 0)
      (N := [.ofKeyword .set, .space, .ofKeyword .data, .space, .ofKeyword .type, .space]) rfl ?_ <|
    .keywords_test (n := 1)
      (N := [.ofKeyword .set, .space, .ofKeyword .default, .space]) rfl ?_ <|
    .keywords_test (n := 1)
      (N := [.ofKeyword .drop, .space, .ofKeyword .default]) rfl ?_ <|
    .keywords_test (n := 0)
      (N := [.ofKeyword .set, .space, .ofKeyword .not, .space, .ofKeyword .null]) rfl ?_ <|
    .keywords_test (n := 0)
      (N := [.ofKeyword .drop, .space, .ofKeyword .not, .space, .ofKeyword .null]) rfl ?_ <|
    .keywords_test (n := 1)
      (N := [.ofKeyword .set, .space, .ofKeyword .visible]) rfl ?_ <|
    .keywords_test (n := 1)
      (N := [.ofKeyword .set, .space, .ofKeyword .invisible]) rfl ?_ <|
    .keywords_test (n := 1)
      (N := [.ofKeyword .set, .space, .ofKeyword .options, .space]) rfl ?_ <|
    .of_fails (Fails.expected_peek _)
  · refine (DataType.parse_echoes.front fun _ _ h => h.mono (by omega)).bind fun t P ht =>
      .pure (fun _ => ?_) fun _ _ h => h
    exact ((Prints.keyword .type).leads.append ht).of_eq (by simp [chunks]; rfl) (by simp)
  · refine (DataType.parse_echoes.front fun _ _ h => shadows_zero).bind fun t P ht =>
      .pure (fun _ => ?_) fun _ _ h => h
    exact (hset.append ((Prints.keyword .data).leads.append ((Prints.keyword .type).leads.append
      ht))).of_eq (by simp [chunks]; rfl) (by simp)
  · refine (Expr.parse_echoes.front fun _ _ h => h.1).bind fun e P he =>
      .pure (fun hsingle => ?_) fun _ _ h => .of_shadows h
    exact (hset.append ((Prints.keyword .default).leads.append (he hsingle))).of_eq
      (by simp [chunks, Expr.text]; rfl) (by simp)
  · exact hword (by omega) (hdrop.append (.keyword .default))
  · exact hword (by omega) (hset.append hnull)
  · exact hword (by omega) (hdrop.append hnull)
  · exact hword (by omega) (hset.append (.keyword .visible))
  · exact hword (by omega) (hset.append (.keyword .invisible))
  · refine groupText_echoes.bind fun text P htext => .pure (fun _ => ?_) fun _ _ _ => trivial
    exact (hset.append ((Prints.keyword .options).leads.append htext)).of_eq
      (by simp [chunks]; rfl) (by simp)

end ColumnAction

end SchemaSql
