import SchemaSql.Proofs.Rereading.Clauses
import SchemaSql.Proofs.Rereading.TableNames

/-! # Echoes of queries

    Every alias is printed with `AS` in front of it, so what stands behind an expression in a
    print is `AS` or one of the few tokens that end an item: `itemStops`.  None of them is read
    as an alias, and none goes on with an expression, whatever the text had in its place. -/

namespace SchemaSql

open Cursor SchemaSql.Parser
open SchemaSql.Expr (Closes Looser StartsAlike closes_nil precedenceAt_cons)

variable {ctx : Context} {n : Nat} {t : Token} {T T' K P : List Token} {ts ts' : List Token}
  {k : Keyword} {reserved : List Keyword}

/-! ## Where parts of a query end -/

/-- What stands behind an item of a printed query. -/
def itemStops : List Token :=
  [.eof, .comma, .pipeArrow, .ofKeyword .from, .ofKeyword .where, .ofKeyword .group,
    .ofKeyword .offset]

/-- What stands behind an expression of a printed query. -/
def exprStops : List Token :=
  [.ofKeyword .as, .ofKeyword .asc, .ofKeyword .desc] ++ itemStops

/-- None of the tokens at which an expression stops lets it go on. -/
theorem closes_of_front (h : frontOf T ∈ exprStops) : Closes T := by
  cases T with
  | nil => exact closes_nil
  | cons t U =>
      have hstop : ∀ t ∈ exprStops, (t ≠ .period ∧ t ≠ .lparen) ∧ t.binaryOp? = none ∧
          t.keyword? ≠ some .is ∧ t.keyword? ≠ some .in ∧ t.keyword? ≠ some .between ∧
            t.keyword? ≠ some .not := by decide +kernel
      obtain ⟨⟨hperiod, hparen⟩, hop, his, hin, hbetween, hnot⟩ := hstop t h
      refine ⟨⟨by simpa using hperiod, by simpa using hparen⟩, ?_⟩
      rw [precedenceAt_cons, Token.precedence, hop]
      dsimp only
      split <;> first | contradiction | rfl

/-- Both lists look the same, and the second one starts with one of these tokens. -/
def Halts (ts : List Token) : TokenRel := fun T T' => Shadows 2 T T' ∧ frontOf T' ∈ ts

theorem Halts.shadows (h : Halts ts T T') : Shadows 1 T T' := h.1.mono (by decide)

/-- More tokens may be stopped at. -/
theorem Halts.mono (h : Halts ts T T') (hts : ts ⊆ ts') : Halts ts' T T' := ⟨h.1, hts h.2⟩

/-- An expression does not go on at a token at which it stops. -/
theorem Halts.looser (h : Halts ts T T') (hts : ts ⊆ exprStops) : Looser T T' :=
  .of_closes (closes_of_front (hts h.2))

/-- The end is one of the tokens at which something may stop. -/
theorem AtEnd.halts (h : AtEnd T T') (hts : .eof ∈ ts) : Halts ts T T' := by
  obtain ⟨rfl, rfl⟩ := h
  exact ⟨.refl 2 [], hts⟩

namespace Echoes

variable {α β : Type} {m : Parser Bool} {p q : Parser α} {f : α → Parser β}
  {F : α → List Token → Prop} {G : β → List Token → Prop} {R : α → TokenRel} {Q : β → TokenRel}
  {S : TokenRel} {N : List Token}

/-- A test decides between two ways of reading something that the reader goes on with. -/
theorem test_bind (h : Echoes ctx (m >>= fun b => if b then p else q) F R S)
    (hf : ∀ a P, F a P → Echoes ctx (f a) (fun v P' => G v (P ++ P')) Q (R a)) :
    Echoes ctx (m >>= fun b => if b then p >>= f else q >>= f) G Q S := by
  have heq : (m >>= fun b => if b then p >>= f else q >>= f) =
      (m >>= fun b => if b then p else q) >>= f := by
    rw [bind_assoc]
    congr 1
    funext b
    cases b <;> rfl
  rw [heq]
  exact h.bind hf

/-- A keyword behind which a part of the query follows. -/
theorem halting_test (hN : solid N = [.ofKeyword k])
    (hp : Echoes ctx p (fun v P => F v (N ++ P)) R (Shadows 1))
    (hq : Echoes ctx q F R (Halts ts)) :
    Echoes ctx (Parser.acceptKeyword k >>= fun b => if b then p else q) F R
      (Halts (.ofKeyword k :: ts)) :=
  keyword_test_of hN (fun _ _ _ ht hk h => ⟨.cons (ht.role_keyword hk) h, by simp⟩)
    (fun _ _ h => keyword_of_shadows h.1) hp
    (hq.front fun _ _ h => h.mono (List.subset_cons_self _ _))

end Echoes

/-! ## Aliases -/

namespace Ident

/-- The token is no alias without `AS`, and is not `AS`. -/
def Refuses (reserved : List Keyword) (t : Token) : Prop :=
  t.keyword? ≠ some .as ∧ aliasOf reserved false { token := t } = none

instance : Decidable (Refuses reserved t) := inferInstanceAs (Decidable (_ ∧ _))

/-- An alias is a name, and it stands behind `AS` as well. -/
theorem aliasOf_names {afterAs : Bool} {l : Located} {name : Ident}
    (h : aliasOf reserved afterAs l = some name) :
    l.token.Names name ∧ ∀ l' : Located, l'.token = l.token →
      aliasOf reserved true l' = some name := by
  obtain ⟨t, loc⟩ := l
  cases t with
  | word w =>
      -- a word without `AS` in front must not be reserved, and behind `AS` it may be
      simp only [aliasOf] at h
      split at h
      · refine ⟨h, ?_⟩
        rintro ⟨_, loc'⟩ rfl
        exact h
      · cases h
  | singleQuoted value =>
      refine ⟨h, ?_⟩
      rintro ⟨_, loc'⟩ rfl
      exact h
  | doubleQuoted value =>
      refine ⟨h, ?_⟩
      rintro ⟨_, loc'⟩ rfl
      exact h
  | _ => cases h

/-- Whether a word is an alias does not depend on where it stands. -/
theorem aliasOf_token (afterAs : Bool) (l : Located) :
    aliasOf reserved afterAs l = aliasOf reserved afterAs { token := l.token } := rfl

/-- An alias stands where it was read, or there was none. -/
theorem parseAlias_cases {o : Option Ident} {c c' : Cursor}
    (h : parseAlias reserved ctx c = .ok o c') :
    (∃ b c1 name, acceptKeyword .as ctx c = .ok b c1 ∧
      aliasOf reserved b c1.peek = some name ∧ o = some name) ∨
    (o = none ∧ c' = c.next.2.back) := by
  rw [parseAlias_eq] at h
  obtain ⟨b, c1, hb, h⟩ := bind_ok.mp h
  obtain ⟨l, c2, hnext, h⟩ := bind_ok.mp h
  rw [next_run] at hnext
  obtain ⟨rfl, rfl⟩ := EStateM.Result.ok.inj hnext
  cases hname : aliasOf reserved b c1.peek with
  | some name =>
      rw [hname] at h
      obtain ⟨rfl, rfl⟩ := pure_ok.mp h
      exact .inl ⟨b, c1, name, hb, hname, rfl⟩
  | none =>
      rw [hname] at h
      cases b with
      | true =>
          -- behind `AS` a name has to stand
          obtain ⟨_, _, hfails, -⟩ := bind_ok.mp h
          exact absurd hfails expected_ne_ok
      | false =>
          obtain ⟨_, c2, hback, h⟩ := bind_ok.mp h
          obtain rfl := back_ok.mp hback
          obtain ⟨rfl, rfl⟩ := pure_ok.mp h
          have hc1 : c1 = c := by
            rw [acceptKeyword, acceptWord_run] at hb
            split at hb
            · cases hb
            · exact (EStateM.Result.ok.inj hb).2.symm
          exact .inr ⟨rfl, by rw [hc1]⟩

/-- An alias behind `AS` is read. -/
theorem parseAlias_behind_as {d : Cursor} {name : Ident}
    (has : d.peek.token.keyword? = some .as)
    (hname : aliasOf reserved true d.next.2.peek = some name) :
    parseAlias reserved ctx d = .ok (some name) d.next.2.next.2 := by
  have htrue : acceptKeyword .as ctx d = .ok true d.next.2 := by
    rw [acceptKeyword, acceptWord_run, if_pos (Denotes.hasKeyword_iff.mpr has)]
  rw [parseAlias_eq, bind_run htrue, bind_run (next_run ctx _), hname]
  rfl

/-- Nothing is read in front of a token that is no alias. -/
theorem parseAlias_refused {d : Cursor} (h : Refuses reserved d.peek.token) :
    parseAlias reserved ctx d = .ok none d.next.2.back := by
  have hfalse : acceptKeyword .as ctx d = .ok false d := by
    rw [acceptKeyword, acceptWord_run, if_neg (mt Denotes.hasKeyword_iff.mp h.1)]
  rw [parseAlias_eq, bind_run hfalse, bind_run (next_run ctx d), aliasOf_token, h.2]
  exact bind_ok.mpr ⟨(), _, back_ok.mpr rfl, rfl⟩

variable [hd : Fact (ctx.dialect ∈ Dialect.builtin)]

/-- An alias is printed behind `AS`. -/
theorem parseAlias_echoes {E : TokenRel}
    (hE : ∀ T T', E T T' → Refuses reserved (frontOf T')) :
    Echoes ctx (parseAlias reserved)
      (fun o P => Trails ctx (o.elim "" fun asName => " AS " ++ asName.text) P)
      (fun o T T' => o = none → E T T')
      (fun T T' => frontOf T' = .ofKeyword .as ∨ E T T') := by
  intro c o c' hoverrun hsource hrun
  obtain ⟨hoverrun', used, hused, -⟩ :=
    parseAlias_local (R := Follow StatementEnd) reserved ctx c o c' hoverrun hrun
  refine ⟨hoverrun', ⟨used, hused.symm⟩, ?_⟩
  rcases parseAlias_cases hrun with ⟨b, c1, name, hb, hname, rfl⟩ | ⟨rfl, rfl⟩
  · -- the print has `AS`, whether the text had it or not
    obtain ⟨-, used1, hused1, -⟩ :=
      Local.acceptKeyword (R := Follow StatementEnd) .as ctx c b c1 hoverrun hb
    obtain ⟨hnames, hafter⟩ := aliasOf_names hname
    have hlucid : c1.peek.token.Lucid ctx.dialect ctx.options.unescape := by
      cases hc1 : c1.rest with
      | nil =>
          rw [peek_eq, hc1] at hname
          cases hname
      | cons l w =>
          rw [hused1, hc1] at hsource
          rw [peek_eq, hc1]
          exact hsource.lucid l (by simp) (c1.clean_rest l (by simp [hc1]))
    have has : Prints ctx Keyword.as.name [.ofKeyword .as] := .keyword .as
    have hprint := has.trails.toPrints.append (hlucid.prints.of_eq hnames.printed_eq rfl).trails
    refine ⟨[.space, .ofKeyword .as, .space, c1.peek.token],
      ⟨hprint.of_eq (by simp [String.append_assoc]; rfl) rfl, fun _ _ => by simp⟩,
      fun K _ => ⟨.inl rfl, fun d hfaces => ?_⟩⟩
    have has : solid [Token.space, .ofKeyword .as, .space] = [.ofKeyword .as] := rfl
    obtain ⟨hpeek, hfaces⟩ := Faces.next (K := c1.peek.token :: K) hfaces has
    obtain ⟨hpeek', hfaces'⟩ :=
      Faces.next (t := c1.peek.token) (P := [c1.peek.token]) (K := K) hfaces
        (by simp [hlucid.solid])
    refine ⟨_, parseAlias_behind_as ?_ (hafter _ hpeek'), hfaces'⟩
    rw [hpeek]
    exact Expr.keyword?_ofKeyword .as
  · refine ⟨[], .nil, fun K hK => ⟨.inr ?_, fun d hfaces => ?_⟩⟩
    · have hahead := hK rfl
      rwa [coming, (at_rest hoverrun).next_back.rest] at hahead
    · have hfront : frontOf (solid K) = d.peek.token := by
        rw [← frontOf_coming, hfaces.coming]
        rfl
      -- no alias: what is behind the print is refused as one too
      have hrefused := hE _ _ (hK rfl)
      rw [hfront] at hrefused
      have hat := (at_rest hfaces.overrun).next_back
      exact ⟨_, parseAlias_refused hrefused, hat.overrun, hat.rest ▸ hfaces.rest⟩

end Ident

variable [hd : Fact (ctx.dialect ∈ Dialect.builtin)]

/-! ## Tables -/

namespace TableRef

/-- What stands behind the table of a printed query. -/
def stops : List Token := [.eof, .pipeArrow, .ofKeyword .where]

/-- A name does not go on into what may stand behind a table. -/
theorem nameAlike_of_stops (h : frontOf T' ∈ .ofKeyword .as :: stops) :
    ObjectName.NameAlike T T' := by
  have hstop : ∀ t ∈ Token.ofKeyword .as :: stops, t ≠ .period ∧ t ≠ .minus := by decide
  exact ⟨fun hperiod => absurd hperiod (hstop _ h).1, (hstop _ h).2⟩

/-- A table is a name and perhaps an alias, printed behind `AS`. -/
theorem parse_echoes : Echoes ctx parse
    (fun table P => table.name.Undigited ctx → Prints ctx table.text P) (fun _ => Halts stops)
    (Shadows 1) := by
  have hrefused : ∀ t ∈ stops, Ident.Refuses Keyword.reservedForTableAlias t := by
    decide +kernel
  refine (ObjectName.parseIn_echoes.behind fun _ _ _ h => h).bind fun name P hname =>
    ((Ident.parseAlias_echoes (E := Halts stops) fun T T' h => hrefused _ h.2).front
      fun T T' h => ?_).bind fun asName P' halias => .pure (fun hdigits => ?_) fun _ _ h _ => h
  · refine nameAlike_of_stops ?_
    rcases h with h | h
    · simp [h]
    · exact List.mem_cons_of_mem _ h.2
  · refine ((hname hdigits).append halias).of_eq ?_ (by simp)
    cases asName <;> simp [text, String.append_assoc]

end TableRef

/-! ## Items -/

namespace SelectItem

/-- A column of a query is a star, or an expression and perhaps an alias. -/
theorem parse_echoes : Echoes ctx parse (fun item P => Written ctx item.contents item.text P)
    (fun _ _ T' => frontOf T' ∈ itemStops) StartsAlike := by
  have hrefused : ∀ t ∈ itemStops, Ident.Refuses Keyword.reservedForColumnAlias t := by
    decide +kernel
  refine (Echoes.accept_of (s := .mul) (N := [.mul]) trivial rfl
    (fun _ _ => .of_role rfl (by decide)) fun T T' h hmul =>
      (Token.eq_sign_of_role h.1.front (s := .mul) trivial).mpr hmul).bind fun wildcard P hP => ?_
  subst hP
  cases wildcard with
  | true =>
      refine .pure (fun _ => ?_) fun _ _ _ => trivial
      exact (Prints.sign (t := .mul) trivial).of_eq (by simp [text, chunks, Token.text]) (by simp)
  | false =>
      -- the expression stops where an alias may stand, since no alias starts with an operator
      refine Expr.parse_echoes.bind fun e P he => ((Ident.parseAlias_echoes
        (E := fun _ T' => frontOf T' ∈ itemStops) fun T T' h => hrefused _ h).front
          fun T T' h => ?_).bind fun asName P' halias => ?_
      · refine .of_closes (closes_of_front ?_)
        rcases h with h | h
        · simp [h, exprStops]
        · exact List.mem_append_right _ h
      · cases asName with
        | some asName =>
            refine .pure (fun hsingle => ?_) fun _ _ _ h => absurd h (by simp)
            refine ((he hsingle).append halias).of_eq ?_ (by simp)
            simp [text, chunks, Expr.text]
        | none =>
            refine .pure (fun hsingle => ?_) fun _ _ h _ => h
            refine ((he hsingle).append halias).of_eq ?_ (by simp)
            simp [text, chunks, Expr.text]

/-- What stands behind an item, or behind a comma that the print does not have. -/
theorem front_of_item {trailing : Bool} {S : TokenRel} (hts : ts ⊆ itemStops)
    (h : BehindItem trailing S (Halts ts) T T') : frontOf T' ∈ itemStops := by
  cases h with
  | further => simp [itemStops]
  | last _ h => exact hts h.2
  | comma _ _ h => exact hts h.2

/-- A comma that is allowed behind the last column is not printed. -/
theorem parseList_echoes (ts : List Token) (hts : ts ⊆ itemStops) (hcomma : .comma ∉ ts) :
    Echoes ctx parseList
    (fun items P => items ≠ [] ∧
      Written ctx (items.flatMap contents) (Text.Chunks.text (listChunks items)) P)
    (fun _ => Halts ts) StartsAlike := by
  refine (Echoes.commaSeparated (E := Halts ts) parse_echoes parse_local
    (fun _ _ _ => front_of_item hts) (fun _ _ h => h.1) fun T T' h hfront =>
      hcomma (hfront ▸ h.2)).print ?_
  rintro items _ ⟨parts, hparts, rfl, hne⟩
  refine ⟨hne, ?_⟩
  rw [listChunks, Text.Chunks.text_separated, List.map_map]
  exact .listing hparts

end SelectItem

/-! ## The start of a query -/

namespace Select

/-- What is needed for a start of a query to be read back. -/
def Readable (ctx : Context) (body : QueryBody) (table : Option TableRef) : Prop :=
  Throughout Expr.Single body.contents ∧ ∀ t ∈ table, t.name.Undigited ctx

/-- Each part of a query is printed behind its word, and stops at the word of the next one. -/
theorem parse_echoes : Echoes ctx parse
    (fun s P => Readable ctx (.select s) s.source →
      Prints ctx (Text.Chunks.text (QueryBody.select s).chunks) (.ofKeyword .select :: P))
    (fun _ => Halts [.eof, .pipeArrow]) Anything := by
  refine ((Echoes.acceptKeyword_of (k := .distinct) (N := [.ofKeyword .distinct, .space])
    (S := StartsAlike) (Q := Anything) rfl
      (fun _ _ _ ht hk _ => .of_role (ht.role_keyword hk) (by decide))
      fun _ _ h => Echoes.keyword_of_shadows h.1).spaced.front fun _ _ _ => trivial).bind
        fun distinct P₁ hdistinct => ?_
  refine ((SelectItem.parseList_echoes [.ofKeyword .from, .ofKeyword .where, .eof,
    .pipeArrow] (by simp [itemStops]) (by simp [Token.ofKeyword])).front fun T T' h => ?_).bind
      fun projection P₂ hprojection => ?_
  · cases distinct
    · exact h
    · trivial
  -- the parts that may be missing: each is told by its word, and the one in front halts there
  refine .test_bind (F := fun source P => (∀ t ∈ source, t.name.Undigited ctx) →
      Trails ctx (source.elim "" fun table => " FROM " ++ table.text) P)
    (R := fun _ => Halts [.ofKeyword .where, .eof, .pipeArrow])
    (.halting_test (N := [.space, .ofKeyword .from, .space]) rfl
      (.map (TableRef.parse_echoes.mono (fun table P h hdigits => ?_)
        (fun _ _ _ h => h.mono (by simp [TableRef.stops])) fun _ _ h => h))
      (.pure (fun _ => .nil) fun _ _ h => h)) fun source P₃ hsource => ?_
  · refine ((Prints.keyword .from).leads.append (h (hdigits _ rfl))).trails.of_eq ?_ rfl
    simp [← String.append_assoc]
    rfl
  refine .test_bind (F := fun selection P => Throughout Expr.Single
      (selection.toList.flatMap Expr.contents) →
      Trails ctx (selection.elim "" fun e => " WHERE " ++ e.text) P)
    (R := fun _ => Halts [.eof, .pipeArrow])
    (.halting_test (N := [.space, .ofKeyword .where, .space]) rfl
      (.map (Expr.parse_echoes.mono (fun e P h hsingle => ?_)
        (fun _ _ _ h => h.looser (by simp [exprStops, itemStops])) fun _ _ h => h.1))
      (.pure (fun _ => .nil) fun _ _ h => h)) fun selection P₄ hselection =>
        .pure (fun hreadable => ?_) fun _ _ h => h
  · refine ((Prints.keyword .where).leads.append (h (by simpa using hsingle))).trails.of_eq ?_ rfl
    simp [← String.append_assoc]
    rfl
  -- what was printed part by part is the text of the whole query
  · obtain ⟨hsingle, htable⟩ := hreadable
    simp only [QueryBody.contents, throughout_append] at hsingle
    obtain ⟨Q, rfl, rfl⟩ := hdistinct
    have hlist := (hprojection.2 hsingle.1).append
      ((hsource htable).append (hselection hsingle.2.2))
    have hall := (Prints.keyword .select).leads.append ((show Leads ctx
      (if distinct then "DISTINCT " else "")
      (if distinct then [.ofKeyword .distinct, .space] else []) from ?_).append hlist)
    · refine hall.of_eq ?_ (by simp)
      cases source <;> cases selection <;>
        simp [QueryBody.chunks, Expr.text, String.append_assoc] <;> rfl
    · cases distinct
      · exact .nil
      · exact (Prints.keyword .distinct).leads

end Select

namespace QueryBody

/-- The table that a query starts from. -/
def table? : QueryBody → Option TableRef
  | .select s => s.source
  | .from table => some table

end QueryBody

/-! ## Pipe operators -/

/-- What stands behind a pipe operator. -/
def pipeStops : List Token := [.eof, .pipeArrow]

theorem pipeStops_subset : pipeStops ⊆ itemStops := by simp [pipeStops, itemStops]

theorem pipeStops_subset_expr : pipeStops ⊆ exprStops :=
  List.Subset.trans pipeStops_subset (List.subset_append_right _ _)

namespace OrderItem

/-- What a direction looks at. -/
def DirectionAlike : TokenRel := fun T T' => Looser T T' ∧ ∀ k ∈ [Keyword.asc, .desc],
  (frontOf T').keyword? = some k → (frontOf T).keyword? = some k

omit hd in
/-- A direction is printed if it was read, and is not taken from what stands behind. -/
theorem direction_echoes : Echoes ctx (acceptOneOf [.asc, .desc])
    (fun o P => P = o.elim [] (fun k => [.space, .ofKeyword k]) ∧ ∀ k ∈ o, k = .asc ∨ k = .desc)
    (fun o T T' => o = none → DirectionAlike T T') DirectionAlike := by
  have hW : ∀ k ∈ [Keyword.asc, .desc], solid [.space, .ofKeyword k] = [.ofKeyword k] :=
    fun k _ => rfl
  refine (Echoes.looks (W := fun o => o.elim [] fun k => [.space, .ofKeyword k]) (Q := Anything)
    (S := DirectionAlike) (acceptOneOf_looks [.asc, .desc]) rfl (fun l o hl ho => ?_)
      fun T T' l l' h hT hT' hnone => ?_).mono (fun o P h => ?_) (fun o T T' h => ?_)
        fun _ _ h => h
  -- a direction was read: its keyword is printed, and an expression stops in front of it
  · obtain ⟨k, hk, rfl⟩ := Option.map_eq_some_iff.mp ho
    obtain ⟨hmem, t, ht, hsame, -⟩ := Echoes.oneOf_taken (n := 0) hW hl hk
    refine ⟨by simp, t, ht, fun l' hl' => by rw [hsame l' hl', Option.map_some],
      fun T T' _ => ?_⟩
    obtain rfl : Token.ofKeyword k = t := (List.cons.inj ((hW k hmem).symm.trans ht)).1
    have hstop : ∀ k ∈ [Keyword.asc, .desc], Token.ofKeyword k ∈ exprStops := by
      simp [exprStops]
    refine ⟨.of_closes (closes_of_front (hstop k hmem)), fun k' _ hk' => ?_⟩
    rw [frontOf_cons, Expr.keyword?_ofKeyword] at hk'
    rw [frontOf_cons, ← hk']
    exact (Denotes.keywordOf_join.mp hk).1
  -- none was read: what stands there in the print is none either
  · rw [Option.map_eq_none_iff, Option.eq_none_iff_forall_ne_some] at hnone ⊢
    intro k hk
    obtain ⟨hword, hmem⟩ := Denotes.keywordOf_join.mp hk
    refine hnone k (Denotes.keywordOf_join.mpr ⟨?_, hmem⟩)
    rw [← hT]
    exact h.2 k hmem (hT' ▸ hword)
  · rcases h with ⟨ho, rfl⟩ | ⟨-, rfl, l, hl⟩
    · obtain rfl := Option.some.inj ho
      exact ⟨rfl, by simp⟩
    · refine ⟨rfl, ?_⟩
      rintro k rfl
      obtain ⟨k', hk', heq⟩ := Option.map_eq_some_iff.mp hl
      obtain rfl := Option.some.inj heq
      simpa using (Denotes.keywordOf_join.mp hk').2
  · cases o <;> simp_all

/-- An item of an order is an expression and perhaps a direction. -/
theorem parse_echoes : Echoes ctx parse
    (fun item P => Written ctx item.expr.contents item.text P)
    (fun _ _ T' => frontOf T' ∈ itemStops) StartsAlike := by
  have hstop : ∀ t ∈ itemStops, ∀ k ∈ [Keyword.asc, .desc], t.keyword? ≠ some k := by
    decide +kernel
  refine (Expr.parse_echoes.behind fun _ T T' (h : DirectionAlike T T') => h.1).bind
    fun e P he => direction_echoes.bind fun o P' ho => ?_
  -- without a direction what stands behind must not be read as one
  have hnone : ∀ T T', frontOf T' ∈ itemStops → DirectionAlike T T' := fun T T' h =>
    ⟨.of_closes (closes_of_front (List.mem_append_right _ h)),
      fun k hk hword => absurd hword (hstop _ h k hk)⟩
  obtain ⟨rfl, ho⟩ := ho
  cases o with
  | none =>
      refine .pure (fun hsingle => ?_) fun T T' h _ => hnone T T' h
      exact (he hsingle).of_eq (by simp [text, chunks, Direction.trailer, Expr.text]) (by simp)
  | some k =>
      rcases ho k rfl with rfl | rfl
      · refine .pure (fun hsingle => ?_) fun _ _ _ h => absurd h (by simp)
        refine ((he hsingle).append (Prints.keyword .asc).trails).of_eq ?_ (by simp)
        simp [text, chunks, Direction.trailer, Expr.text]
        rfl
      · refine .pure (fun hsingle => ?_) fun _ _ _ h => absurd h (by simp)
        refine ((he hsingle).append (Prints.keyword .desc).trails).of_eq ?_ (by simp)
        simp [text, chunks, Direction.trailer, Expr.text]
        rfl

end OrderItem

/-- A renaming is printed with `AS` between its names. -/
theorem Renaming.parse_echoes : Echoes ctx parse (fun r P => Prints ctx r.text P)
    (fun _ => Anything) (Shadows 1) := by
  refine ((Ident.parse_echoes (n := 0)).behind fun _ _ _ _ => shadows_zero).bind fun name P hname =>
    Echoes.added (acceptWord_looks (some .as)) rfl (N := [.space, .ofKeyword .as, .space]) rfl
      (fun l hl => ?_) (((Ident.parse_echoes (n := 0)).mono (fun _ _ h => h)
        (fun _ _ _ _ => shadows_zero) fun _ _ _ => trivial).bind fun newName P' hnew =>
          .pure ?_ fun _ _ _ => trivial)
  · rw [if_pos (Denotes.hasKeyword_iff.mpr (by rw [hl]; exact Expr.keyword?_ofKeyword .as))]
    exact Option.some_ne_none _
  · refine (hname.append ((Prints.keyword .as).leads.append hnew).trails).of_eq ?_ (by simp)
    simp [text, String.append_assoc]
    rfl

namespace PipeOperator

/-- Reads what stands behind the first word of an operator. -/
def parseBehind (found : Located) : Option Keyword → Parser PipeOperator
  | some .where => return .where (← Expr.parse)
  | some .select => return .select (← SelectItem.parseList)
  | some .extend => return .extend (← SelectItem.parseList)
  | some .drop => return .drop (← commaSeparated (Ident.parse false))
  | some .as => return .as (← Ident.parse false)
  | some .limit => do
    let count ← Expr.parse
    let offset ← if ← acceptKeyword .offset then some <$> Expr.parse else pure none
    return .limit count offset
  | some .order => do
    let _ ← expectKeyword .by
    return .orderBy (← commaSeparated OrderItem.parse)
  | some .rename => return .rename (← commaSeparated Renaming.parse)
  | some .aggregate => do
    let items ← if endsAggregates (← peek).token then pure [] else SelectItem.parseList
    let groupBy ← if ← acceptKeywords [.group, .by] then SelectItem.parseList else pure []
    return .aggregate items groupBy
  | _ =>
    expected "one of WHERE, SELECT, EXTEND, DROP, AS, LIMIT, ORDER BY, RENAME or AGGREGATE" found

theorem parse_eq :
    parse = (next >>= fun found => parseBehind found found.token.bareKeyword?) := rfl

omit hd in
/-- The token of the operator matters to errors alone. -/
theorem parseBehind_found {found : Located} (found' : Located) {keyword : Option Keyword}
    {c c' : Cursor} {v : PipeOperator} (h : parseBehind found keyword ctx c = .ok v c') :
    parseBehind found' keyword ctx c = .ok v c' := by
  unfold parseBehind at h
  split at h <;> first | exact h | exact absurd h expected_ne_ok

theorem endsAggregates_role (t : Token) : endsAggregates t.role = endsAggregates t := by
  cases t <;> rfl

/-- A list with commas behind the first words of an operator. -/
theorem list_echoes {α : Type} {item : Parser α} {g : α → String} {f : List α → PipeOperator}
    {nodes : α → List Node} {R : α → TokenRel} {S : TokenRel} {lead : String}
    (hlead : Prints ctx lead P)
    (h : Echoes ctx item (fun a P => Written ctx (nodes a) (g a) P) R S)
    (hl : Local (Follow StatementEnd) item)
    (hR : ∀ a T T', frontOf T' ∈ itemStops → R a T T') (hS : ∀ T T', S T T' → Shadows 1 T T')
    (htext : ∀ items, (f items).text = lead ++ (" " ++ Text.commaSeparated (items.map g)))
    (hnodes : ∀ items, (f items).contents = items.flatMap nodes) :
    Echoes ctx (do return f (← commaSeparated item))
      (fun pipe P' => Written ctx pipe.contents pipe.text (P ++ P'))
      (fun _ => Halts pipeStops) Anything := by
  refine ((Echoes.commaSeparated (E := Halts pipeStops) h hl
    (fun a T T' h => hR a T T' (SelectItem.front_of_item pipeStops_subset h)) hS
    fun T T' h hfront => absurd (hfront ▸ h.2) (by decide)).spaced.front
      fun _ _ _ => trivial).bind fun items P' hitems => .pure ?_ fun _ _ h => h
  obtain ⟨_, rfl, parts, hparts, rfl, -⟩ := hitems
  rw [htext, hnodes]
  intro hsingle
  exact (hlead.append (Written.listing hparts hsingle).trails).of_eq rfl (by simp)

/-- The second list of an aggregation. -/
theorem groupBy_echoes {items : List SelectItem}
    (hitems : Throughout Expr.Single (items.flatMap SelectItem.contents) → Trails ctx
      (if items.isEmpty then "" else " " ++ Text.Chunks.text (SelectItem.listChunks items)) P) :
    Echoes ctx (do
      let groupBy ← if ← acceptKeywords [.group, .by] then SelectItem.parseList else pure []
      return .aggregate items groupBy : Parser PipeOperator)
      (fun pipe P' => Written ctx pipe.contents pipe.text (.ofKeyword .aggregate :: (P ++ P')))
      (fun _ => Halts pipeStops) (Halts (.ofKeyword .group :: pipeStops)) := by
  have hgroup : Leads ctx "GROUP BY " [.ofKeyword .group, .space, .ofKeyword .by, .space] :=
    (Prints.keyword .group).leads.append_leads (Prints.keyword .by).leads
  -- the keys of the groups are printed behind `GROUP BY`, or are not there
  have hlist : Echoes ctx
      (acceptKeywords [.group, .by] >>= fun b => if b then SelectItem.parseList else pure [])
      (fun groupBy P => Throughout Expr.Single (groupBy.flatMap SelectItem.contents) →
        Trails ctx (if groupBy.isEmpty then "" else
          " GROUP BY " ++ Text.Chunks.text (SelectItem.listChunks groupBy)) P)
      (fun _ => Halts pipeStops) (Halts (.ofKeyword .group :: pipeStops)) := by
    refine .keywords_test_of (Q := Anything)
      (show solid [.space, .ofKeyword .group, .space, .ofKeyword .by, .space] =
        [Keyword.group, .by].map Token.ofKeyword from rfl) (fun T M T' hlucid hdrop _ =>
        ⟨Echoes.shadows_dropWords (n := 0) hlucid hdrop shadows_zero, List.mem_cons_self ..⟩)
      (fun T T' h hdrop => Echoes.dropWords_none (n := 0) h.1 hdrop)
      ((SelectItem.parseList_echoes pipeStops pipeStops_subset (by decide)).mono
        (fun groupBy P h hsingle => ?_) (fun _ _ _ h => h) fun _ _ _ => trivial)
      (.pure (fun _ => Trails.nil) fun _ _ h => h.mono (List.subset_cons_self _ _))
    rw [if_neg (by simpa using h.1)]
    refine (hgroup.append (h.2 hsingle)).trails.of_eq ?_ rfl
    rw [← String.append_assoc]
    rfl
  refine hlist.test_bind fun groupBy P' hgroupBy => .pure (fun hsingle => ?_) fun _ _ h => h
  simp only [contents, throughout_append] at hsingle
  refine ((Prints.keyword .aggregate).append ((hitems hsingle.1).append
    (hgroupBy hsingle.2))).of_eq ?_ (by simp)
  rw [text, chunks]
  cases items <;> cases groupBy <;> simp [String.append_assoc] <;> rfl

/-- The lists of an aggregation. -/
theorem aggregate_echoes : Echoes ctx (do
    let items ← if endsAggregates (← peek).token then pure [] else SelectItem.parseList
    let groupBy ← if ← acceptKeywords [.group, .by] then SelectItem.parseList else pure []
    return .aggregate items groupBy : Parser PipeOperator)
    (fun pipe P => Written ctx pipe.contents pipe.text (.ofKeyword .aggregate :: P))
    (fun _ => Halts pipeStops) (Shadows 1) := by
  refine .peek (fun l l' hrole => ?_) (fun l => ?_) fun _ _ h => h
  · rw [← endsAggregates_role, hrole, endsAggregates_role]
  · refine .ite (fun _ => ?_) fun _ => ?_
    · refine (Echoes.pure (F := fun items P => items = [] ∧ P = []) (R := fun _ => Shadows 1)
        ⟨rfl, rfl⟩ fun _ _ h => h).bind fun items P hitems => ?_
      obtain ⟨rfl, rfl⟩ := hitems
      exact (groupBy_echoes fun _ => .nil).front fun _ _ h => h.shadows
    · refine ((SelectItem.parseList_echoes (.ofKeyword .group :: pipeStops)
        (by simp [pipeStops, itemStops]) (by simp [pipeStops, Token.ofKeyword])).spaced.front
          fun _ _ h => h.1).bind fun items P hitems => ?_
      obtain ⟨P', rfl, hne, hitems⟩ := hitems
      refine groupBy_echoes fun hsingle => ?_
      rw [if_neg (by simpa using hne)]
      exact (hitems hsingle).trails

/-- The count of a limit, and what is skipped. -/
theorem limit_echoes : Echoes ctx (do
    let count ← Expr.parse
    let offset ← if ← acceptKeyword .offset then some <$> Expr.parse else pure none
    return .limit count offset : Parser PipeOperator)
    (fun pipe P => Written ctx pipe.contents pipe.text (.ofKeyword .limit :: P))
    (fun _ => Halts pipeStops) Anything := by
  -- the offset is printed behind its word, or is not there
  have hoffset : Echoes ctx
      (acceptKeyword .offset >>= fun b => if b then some <$> Expr.parse else pure none)
      (fun offset P => Throughout Expr.Single (offset.toList.flatMap Expr.contents) →
        Trails ctx (offset.elim "" fun e => " OFFSET " ++ e.text) P)
      (fun _ => Halts pipeStops) (Halts (.ofKeyword .offset :: pipeStops)) := by
    refine .halting_test (N := [.space, .ofKeyword .offset, .space]) rfl
      (.map (Expr.parse_echoes.mono (fun e P h hsingle => ?_)
        (fun _ _ _ h => h.looser pipeStops_subset_expr) fun _ _ h => h.1))
      (.pure (fun _ => Trails.nil) fun _ _ h => h)
    refine ((Prints.keyword .offset).leads.append (h (by simpa using hsingle))).trails.of_eq
      ?_ rfl
    simp [← String.append_assoc]
    rfl
  refine (Expr.parse_echoes.spaced.front fun _ _ _ => trivial).bind fun count P hcount =>
    (hoffset.front fun _ _ h => h.looser (by simp [pipeStops, exprStops, itemStops])).test_bind
      fun offset P' hoffset => .pure (fun hsingle => ?_) fun _ _ h => h
  obtain ⟨P₁, rfl, hcount⟩ := hcount
  simp only [contents, throughout_append] at hsingle
  refine ((Prints.keyword .limit).append ((hcount hsingle.1).trails.append
    (hoffset hsingle.2))).of_eq ?_ (by simp)
  cases offset <;> simp [text, chunks, Expr.text, String.append_assoc] <;> rfl

/-- An operator is printed behind its keyword, and stops at the next pipe or the end. -/
theorem parseBehind_echoes (found : Located) (keyword : Option Keyword) :
    Echoes ctx (parseBehind found keyword)
      (fun pipe P => Written ctx pipe.contents pipe.text
        ((keyword.map Token.ofKeyword).toList ++ P))
      (fun _ => Halts pipeStops) Anything := by
  have hitemText (items : List SelectItem) : Text.Chunks.text (SelectItem.listChunks items) =
      Text.commaSeparated (items.map SelectItem.text) := by
    rw [SelectItem.listChunks, Text.Chunks.text_separated, List.map_map]
    rfl
  -- one case for each operator; those with a list of items are `list_echoes` with their own word
  unfold parseBehind
  split
  · refine (Expr.parse_echoes.spaced.mono (fun _ _ h => h) (fun _ _ _ h =>
      h.looser pipeStops_subset_expr) fun _ _ _ => trivial).bind fun e P he =>
        .pure (fun hsingle => ?_) fun _ _ h => h
    obtain ⟨P', rfl, he⟩ := he
    refine ((Prints.keyword .where).append (he hsingle).trails).of_eq ?_ (by simp)
    simp [text, chunks, Expr.text]
    rfl
  · refine list_echoes (f := .select) (.keyword .select) SelectItem.parse_echoes
      SelectItem.parse_local (fun _ _ _ h => h) (fun _ _ h => h.1) (fun items => ?_) fun _ => rfl
    rw [← hitemText]
    simp [text, chunks]
    rfl
  · refine list_echoes (f := .extend) (.keyword .extend) SelectItem.parse_echoes
      SelectItem.parse_local (fun _ _ _ h => h) (fun _ _ h => h.1) (fun items => ?_) fun _ => rfl
    rw [← hitemText]
    simp [text, chunks]
    rfl
  · have hname : Echoes ctx (Ident.parse false) (fun name P => Written ctx [] name.text P)
        (fun _ => Shadows 0) (Shadows 1) := Ident.parse_echoes.print fun _ _ h _ => h
    refine list_echoes (f := .drop) (.keyword .drop) hname (Ident.parse_local false)
      (fun _ _ _ _ => shadows_zero) (fun _ _ h => h) (fun items => ?_) fun items => ?_
    · simp [text, chunks]
      rfl
    · simp [contents]
  · refine ((Ident.parse_echoes (n := 0)).trailing.mono (fun _ _ h => h)
      (fun _ _ _ _ => shadows_zero) fun _ _ _ => trivial).bind fun name P hname =>
        .pure (fun _ => ?_) fun _ _ h => h
    refine ((Prints.keyword .as).append hname).of_eq ?_ (by simp)
    simp [text, chunks]
    rfl
  · exact limit_echoes
  · refine (Echoes.keyword_behind (n := 0) (N := [.space, .ofKeyword .by]) rfl
      ((list_echoes (f := .orderBy) ((Prints.keyword .order).leads.append (Prints.keyword .by))
        OrderItem.parse_echoes OrderItem.parse_local (fun _ _ _ h => h) (fun _ _ h => h.1)
          (fun items => ?_) fun _ => rfl).front fun _ _ _ => shadows_zero)).front
            fun _ _ _ => trivial
    simp [text, chunks, Text.Chunks.text_separated, String.append_assoc]
    rfl
  · have hrenaming : Echoes ctx Renaming.parse (fun r P => Written ctx [] r.text P)
        (fun _ => Anything) (Shadows 1) := Renaming.parse_echoes.print fun _ _ h _ => h
    refine list_echoes (f := .rename) (.keyword .rename) hrenaming Renaming.parse_local
      (fun _ _ _ _ => trivial) (fun _ _ h => h) (fun items => ?_) fun items => ?_
    · simp [text, chunks]
      rfl
    · simp [contents]
  · exact aggregate_echoes.front fun _ _ _ => trivial
  · exact .of_fails (.expected _ _)

/-- An operator is read from its text as it was read. -/
theorem parse_echoes : Echoes ctx parse (fun pipe P => Written ctx pipe.contents pipe.text P)
    (fun _ => Halts pipeStops) (Shadows 1) := by
  rw [parse_eq]
  refine .next (fun t => (t.bareKeyword?.map Token.ofKeyword).toList) (fun l hl => ?_)
    (.expected _ _)
  cases hk : l.token.bareKeyword? with
  | none => exact .inl (.expected _ _)
  | some k =>
      refine .inr ⟨.ofKeyword k, rfl, fun l' hl' d v d' h => ?_, ?_⟩
      · rw [hl', Expr.bareKeyword?_ofKeyword]
        exact parseBehind_found l' h
      · exact (parseBehind_echoes l (some k)).front fun T T' _ =>
          .cons (Token.role_ofKeyword hk) shadows_zero

end PipeOperator

/-! ## Queries -/

namespace QueryBody

/-- A query starts with `SELECT` or with `FROM`, and is printed with the same word. -/
theorem parse_echoes : Echoes ctx Query.parseBody
    (fun body P => Select.Readable ctx body body.table? →
      Prints ctx (Text.Chunks.text body.chunks) P)
    (fun _ => Halts pipeStops) (Shadows 1) := by
  refine .keyword_test (n := 0) (k := .select) (N := [.ofKeyword .select]) rfl
    ((Select.parse_echoes.front fun _ _ _ => shadows_zero).bind fun s P hs =>
      .pure (fun hreadable => (hs hreadable).of_eq rfl (by simp)) fun _ _ h => h)
    (.keyword_behind (n := 0) (N := [.ofKeyword .from, .space]) rfl
      ((TableRef.parse_echoes.mono (fun _ _ h => h)
        (fun _ _ _ h => h.mono (by simp [pipeStops, TableRef.stops]))
        fun _ _ _ => shadows_zero).bind fun table P htable =>
          .pure (fun hreadable => ?_) fun _ _ h => h))
  refine ((Prints.keyword .from).leads.append (htable (hreadable.2 table rfl))).of_eq ?_
    (by simp)
  simp [chunks]
  rfl

end QueryBody

namespace Query

/-- What is needed for a query to be read back: no minus sign stands in front of another one,
    and no part of the table's name but the last one ends in a hyphen and digits. -/
def Readable (ctx : Context) (query : Query) : Prop :=
  Throughout Expr.Single query.contents ∧ ∀ t ∈ query.body.table?, t.name.Undigited ctx

/-- Pipes are printed one behind the other until the text ends. -/
theorem parsePipes_echoes : Echoes ctx parsePipes
    (fun pipes P => Throughout Expr.Single (pipes.flatMap PipeOperator.contents) →
      Trails ctx (Text.Chunks.text (pipes.map fun pipe => " |> " ++ pipe.text)) P)
    (fun _ => AtEnd) (Halts pipeStops) := by
  have hend : ∀ T T', AtEnd T T' → Halts pipeStops T T' := fun _ _ h => h.halts (by decide)
  -- a pipe is printed with its sign in front, and halts at the next sign or at the end
  have hpipe : Echoes ctx
      (do if ← accept .pipeArrow then some <$> PipeOperator.parse else return none)
      (fun o P => o.elim (P = []) fun pipe => Throughout Expr.Single pipe.contents →
        Trails ctx (" |> " ++ pipe.text) P) (fun o => o.elim AtEnd fun _ => Halts pipeStops)
      (Halts pipeStops) := by
    refine (Echoes.accept_of (s := .pipeArrow) (N := [.space, .pipeArrow, .space]) trivial rfl
      (fun _ _ => ⟨.sign rfl, by simp [pipeStops]⟩) fun T T' h hfront =>
        (Token.eq_sign_of_role h.shadows.front (s := .pipeArrow) trivial).mpr hfront).bind
          fun more P hP => ?_
    subst hP
    cases more with
    | true =>
        refine .map (PipeOperator.parse_echoes.mono (fun pipe P h hsingle => ?_)
          (fun _ _ _ h => h) fun _ _ _ => trivial)
        have hsign : Prints ctx "|>" [.pipeArrow] := Prints.sign (t := .pipeArrow) trivial
        refine (hsign.leads.append (h hsingle)).trails.of_eq ?_ rfl
        rw [← String.append_assoc]
        rfl
    | false => exact .pure rfl hend
  -- dialects without pipes read and print none
  refine .read <| .ite (fun _ => .pure (fun _ => Trails.nil) hend) fun _ => ?_
  refine (Echoes.many (.item (.accept (by simp [EndMark])) PipeOperator.parse_local) hpipe).print ?_
  rintro pipes _ ⟨parts, hparts, rfl⟩ hsingle
  rw [throughout_flatMap] at hsingle
  have hall := (List.forall₂_and_left ..).mpr ⟨hsingle, hparts⟩
  exact .flatten (hall.imp fun _ _ h => h.2 h.1)

/-- A query is printed as its body and its pipes. -/
theorem text_bodyPipes (query : Query) : query.text = Text.Chunks.text query.body.chunks ++
    Text.Chunks.text (query.pipes.map fun pipe => " |> " ++ pipe.text) := by
  have hpipes (pipes : List PipeOperator) :
      Text.Chunks.text (pipes.flatMap fun pipe => " |> " :: pipe.chunks) =
        Text.Chunks.text (pipes.map fun pipe => " |> " ++ pipe.text) := by
    induction pipes with
    | nil => rfl
    | cons pipe pipes ih => simp [ih, PipeOperator.text, String.append_assoc]
  rw [text, chunks, Text.Chunks.text_append, hpipes]

/-- A query is read from its text as it was read. -/
theorem parse_echoes : Echoes ctx parse
    (fun query P => query.Readable ctx → Prints ctx query.text P) (fun _ => AtEnd)
    (Shadows 1) := by
  refine .descend fun depth => ?_
  have : Fact ({ ctx with depth }.dialect ∈ Dialect.builtin) := hd
  refine QueryBody.parse_echoes.bind fun body P hbody => parsePipes_echoes.bind
    fun pipes P' hpipes => .pure (fun hreadable => ?_) fun _ _ h => h
  obtain ⟨hsingle, htable⟩ := hreadable
  simp only [contents, throughout_append] at hsingle
  rw [text_bodyPipes]
  exact (((hbody ⟨hsingle.1, htable⟩).append (hpipes hsingle.2)).of_eq rfl (by simp)).of_depth

end Query

end SchemaSql
