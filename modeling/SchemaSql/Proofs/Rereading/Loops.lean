import SchemaSql.Proofs.Emission
import SchemaSql.Proofs.Locality.Statements
import SchemaSql.Proofs.Rereading.Keywords

/-! # Echoes of loops and lists

    What a loop prints are the prints of its steps, one after the other.  Each step looks at
    the print of the next one, and the last one at what stands behind.

    A list is printed with a comma and a space between two items.  `Echoes.commaSeparatedWith`
    takes care of a comma behind the last item, which the print does not have: then the item
    looked at a comma, and the second time it looks at what stood behind that. -/

namespace SchemaSql

open Cursor SchemaSql.Parser

variable {α β : Type} {ctx : Context} {T T' : List Token} {n : Nat}

/-- The prints of the items of a list. -/
def Each (I : α → List Token → Prop) (items : List α) (parts : List (List Token)) : Prop :=
  List.Forall₂ I items parts

/-- Tokens with a comma and a space between two of them. -/
def listed (parts : List (List Token)) : List Token := [Token.comma, .space].intercalate parts

@[simp] theorem listed_nil : listed [] = [] := rfl

@[simp] theorem listed_singleton (P : List Token) : listed [P] = P := by
  simp [listed, List.intercalate]

/-- Between two parts stand a comma and a space. -/
@[simp] theorem listed_cons_cons (P P' : List Token) (parts : List (List Token)) :
    listed (P :: P' :: parts) = P ++ .comma :: .space :: listed (P' :: parts) := by
  simp [listed, List.intercalate]

/-- A list is its first item and the others behind commas. -/
theorem listed_cons (P : List Token) (parts : List (List Token)) :
    listed (P :: parts) = P ++ (parts.map fun P => .comma :: .space :: P).flatten := by
  induction parts generalizing P with
  | nil => simp
  | cons P' parts ih => simp [ih]

/-- A list is read as its first item and the others behind commas. -/
theorem Each.listed {I : α → List Token → Prop} {first : α} {rest : List α} {P : List Token}
    {parts : List (List Token)} (hfirst : I first P)
    (h : Each (fun a P => ∃ P', I a P' ∧ P = .comma :: .space :: P') rest parts) :
    ∃ parts', Each I (first :: rest) parts' ∧ P ++ parts.flatten = SchemaSql.listed parts' := by
  suffices hbehind : ∃ parts', Each I rest parts' ∧
      parts = parts'.map fun P => .comma :: .space :: P by
    obtain ⟨parts', hrest, rfl⟩ := hbehind
    exact ⟨P :: parts', .cons hfirst hrest, by rw [listed_cons]⟩
  induction h with
  | nil => exact ⟨[], .nil, rfl⟩
  | cons hpart _ ih =>
      obtain ⟨P', hP', rfl⟩ := hpart
      obtain ⟨parts', hrest, rfl⟩ := ih
      exact ⟨P' :: parts', .cons hP' hrest, rfl⟩

/-- The text of a list. -/
theorem Prints.listing [ctx.dialect.Regular] {g : α → String} {items : List α}
    {parts : List (List Token)} (h : Each (fun a P => Prints ctx (g a) P) items parts) :
    Prints ctx (Text.commaSeparated (items.map g)) (listed parts) := by
  induction h with
  | nil => exact Leads.nil.prints
  | @cons a P items parts hP h ih =>
      cases h with
      | nil => simpa [Text.commaSeparated] using hP
      | @cons a' P' items parts hP' h =>
          have hcomma : Leads ctx ", " [.comma, .space] := ⟨rfl, fun Q => by simp⟩
          have htail := hcomma.append ih
          refine (hP.append ⟨htail, fun Q _ => by simp⟩).of_eq ?_ (by simp)
          simp [Text.commaSeparated, String.intercalate_cons_cons, String.append_assoc]

/-- The text of a list whose items are printed piece by piece. -/
theorem Prints.listing_chunks [ctx.dialect.Regular] {g : α → Text.Chunks} {items : List α}
    {parts : List (List Token)}
    (h : Each (fun a P => Prints ctx (Text.Chunks.text (g a)) P) items parts) :
    Prints ctx (Text.Chunks.text (Text.Chunks.separated ", " (items.map g))) (listed parts) := by
  rw [Text.Chunks.text_separated, List.map_map]
  exact .listing h

/-- The text of parts each of which brings its own blanks. -/
theorem Trails.flatten {g : α → String} {items : List α} {parts : List (List Token)}
    (h : Each (fun a P => Trails ctx (g a) P) items parts) :
    Trails ctx (Text.Chunks.text (items.map g)) parts.flatten := by
  induction h with
  | nil => exact .nil
  | cons hP _ ih => simpa using hP.append ih

/-- What stands behind an item of a list: a comma and a further item, or what ends the list,
    perhaps behind a comma. -/
inductive BehindItem (trailing : Bool) (S E : TokenRel) : TokenRel
  | further {U U' : List Token} : S U U' → BehindItem trailing S E (.comma :: U) (.comma :: U')
  | last {T T' : List Token} : frontOf T ≠ .comma → E T T' → BehindItem trailing S E T T'
  | comma {U T' : List Token} : trailing = true → endsList (frontOf U) = true → E U T' →
      BehindItem trailing S E (.comma :: U) T'

/-- What stands behind an item of a list in parentheses looks the same to all readers. -/
theorem BehindItem.shadows {S : TokenRel} (h : BehindItem false S (Facing .rparen) T T') :
    Shadows n T T' := by
  cases h with
  | further => exact .sign rfl
  | last _ h => exact Facing.shadows (s := .rparen) trivial h
  | comma h => cases h

namespace Parser

theorem endsList_role (t : Token) : endsList t.role = endsList t := by cases t <;> rfl

end Parser

namespace Echoes

variable {F : α → List Token → Prop} {I : α → List Token → Prop} {J : β → List Token → Prop}
  {R : α → TokenRel} {S E : TokenRel}

/-! ## Loops -/

/-- A loop that keeps up a print of its state. -/
theorem iterate {step : β → Parser (Option β)} (hshort : Shortens step)
    (h : ∀ s P, J s P → Echoes ctx (step s)
      (fun o P' => o.elim (P' = []) fun s' => J s' (P ++ P')) (fun o => o.elim E fun _ => S) S)
    {s : β} {P : List Token} (hs : J s P) :
    Echoes ctx (Parser.iterate step s) (fun v P' => J v (P ++ P')) (fun _ => E) S := by
  intro c v c' hoverrun hsource hrun
  rw [iterate_ok hshort hoverrun] at hrun
  -- inside the text the loop is the sequence of its steps, on which the induction is
  suffices hloop : c'.overrun = 0 ∧ c'.rest <:+ c.rest ∧ ∃ P', J v (P ++ P') ∧
      ∀ K, E c'.coming (solid K) → S c.coming (solid (P' ++ K)) ∧
        ∀ d : Cursor, d.Faces (P' ++ K) → ∃ d', Iterates step ctx s d v d' ∧ d'.Faces K by
    obtain ⟨hoverrun', hrest, P', hP', hreplay⟩ := hloop
    refine ⟨hoverrun', hrest, P', hP', fun K hK => ?_⟩
    obtain ⟨hahead, hrun'⟩ := hreplay K hK
    refine ⟨hahead, fun d hd => ?_⟩
    obtain ⟨d', hiter, hfaces⟩ := hrun' d hd
    exact ⟨d', (iterate_ok hshort hd.overrun).mpr hiter, hfaces⟩
  induction hrun generalizing P with
  | done hnone =>
      obtain ⟨hoverrun', hrest, P', rfl, hreplay⟩ := h _ P hs _ _ _ hoverrun hsource hnone
      refine ⟨hoverrun', hrest, [], by simpa using hs, fun K hK => ?_⟩
      obtain ⟨hahead, hrun'⟩ := hreplay K hK
      refine ⟨hahead, fun d hd => ?_⟩
      obtain ⟨d', hd', hfaces⟩ := hrun' d hd
      exact ⟨d', .done hd', hfaces⟩
  | more hsome _ ih =>
      obtain ⟨hoverrun1, hrest1, P₁, hP₁, hreplay⟩ := h _ P hs _ _ _ hoverrun hsource hsome
      obtain ⟨hoverrun', hrest', P₂, hP₂, hreplay'⟩ :=
        ih hP₁ hoverrun1 (hsource.mono hrest1.isInfix)
      refine ⟨hoverrun', hrest'.trans hrest1, P₁ ++ P₂, by simpa using hP₂, fun K hK => ?_⟩
      obtain ⟨hahead', hrun'⟩ := hreplay' K hK
      obtain ⟨hahead, hrun⟩ := hreplay (P₂ ++ K) hahead'
      rw [List.append_assoc]
      refine ⟨hahead, fun d hd => ?_⟩
      obtain ⟨d1, hd1, hfaces⟩ := hrun d hd
      obtain ⟨d', hd', hfaces'⟩ := hrun' d1 hfaces
      exact ⟨d', .more hd1 hd', hfaces'⟩

/-- A loop that gathers values. -/
theorem many {item : Parser (Option α)} (ho : Offers (Follow StatementEnd) (· ≠ none) item)
    (h : Echoes ctx item (fun o P => o.elim (P = []) fun a => I a P)
      (fun o => o.elim E fun _ => S) S) :
    Echoes ctx (Parser.many item) (fun items P => ∃ parts, Each I items parts ∧ P = parts.flatten)
      (fun _ => E) S := by
  refine map ?_
  let J : List α → List Token → Prop := fun items P =>
    ∃ parts, Each I items.reverse parts ∧ P = parts.flatten
  have hnil : J [] [] := ⟨[], .nil, rfl⟩
  refine iterate (J := J) (shortens_of fun items => ho.collect items) (fun items P hJ => ?_) hnil
  obtain ⟨parts, hparts, rfl⟩ := hJ
  refine map (h.mono (fun o P' hP' => ?_) (fun o T T' h => ?_) fun _ _ h => h)
  · cases o with
    | none => exact hP'
    | some a =>
        refine ⟨parts ++ [P'], ?_, by simp⟩
        rw [Each, List.reverse_cons]
        exact List.rel_append hparts (.cons hP' .nil)
  · cases o <;> exact h

/-- A loop all of whose steps look at the same. -/
theorem many_alike {item : Parser (Option α)}
    (ho : Offers (Follow StatementEnd) (· ≠ none) item)
    (h : Echoes ctx item (fun o P => o.elim (P = []) fun a => I a P) (fun _ => S) S) :
    Echoes ctx (Parser.many item) (fun items P => ∃ parts, Each I items parts ∧ P = parts.flatten)
      (fun _ => S) S :=
  many ho (h.behind fun o _ _ h => by cases o <;> exact h)

/-! ## Lists with commas -/

/-- One more item of a list. -/
theorem another {item : Parser α} {trailing : Bool} (h : Echoes ctx item I R S)
    (hR : ∀ a T T', BehindItem trailing S E T T' → R a T T')
    (hS : ∀ T T', S T T' → Shadows 1 T T') (hE : ∀ T T', E T T' → frontOf T' ≠ .comma) :
    Echoes ctx (do if ← acceptSeparator trailing then some <$> item else return none)
      (fun o P => o.elim (P = []) fun a => ∃ P', I a P' ∧ P = .comma :: .space :: P')
      (fun o => o.elim E fun _ => BehindItem trailing S E) (BehindItem trailing S E) := by
  intro c o c' hoverrun hsource hrun
  obtain ⟨b, c1, hb, hrun⟩ := bind_ok.mp hrun
  rw [acceptSeparator_run] at hb
  have hpass : ∀ d : Cursor, d.peek.token ≠ .comma →
      (do if ← acceptSeparator trailing then some <$> item else return none : Parser (Option α))
        ctx d = .ok none d := by
    intro d hd
    refine bind_ok.mpr ⟨false, d, ?_, rfl⟩
    rw [acceptSeparator_run, if_neg hd]
  have hfront : ∀ {K : List Token} {d : Cursor}, d.Faces ([] ++ K) → frontOf (solid K) ≠ .comma →
      d.peek.token ≠ .comma := fun hd hK => by
    rwa [← frontOf_coming, hd.coming]
  by_cases hcomma : c.peek.token = .comma
  · rw [if_pos hcomma] at hb
    obtain ⟨rfl, rfl⟩ := EStateM.Result.ok.inj hb
    cases hc : c.rest with
    | nil =>
        rw [peek_eq, hc] at hcomma
        cases hcomma
    | cons l w =>
        obtain ⟨hl, hoverrun1, hrest1, hahead1⟩ := next_of_cons hoverrun hc
        have htoken : l.token = .comma := by rw [← hl, next_fst, hcomma]
        have hahead : c.coming = .comma :: c.next.2.coming := by
          rw [coming_of_cons hc, htoken, hahead1]
        have hsuffix : c.next.2.rest <:+ l :: w := by
          rw [hrest1]
          exact (List.dropWhile_suffix _).trans (List.suffix_cons l w)
        cases hends : trailing && endsList c.next.2.peek.token with
        | true =>
            -- the comma ends the list, and is not printed
            obtain ⟨htrailing, hends⟩ := Bool.and_eq_true_iff.mp hends
            rw [htrailing, hends] at hrun
            obtain ⟨rfl, rfl⟩ := pure_ok.mp hrun
            refine ⟨hoverrun1, hsuffix, [], rfl, fun K hK => ⟨?_, fun d hd => ⟨d, hpass d
              (hfront hd (hE _ _ hK)), hd⟩⟩⟩
            rw [hahead]
            exact .comma htrailing (by rwa [frontOf_coming]) hK
        | false =>
            rw [hends] at hrun
            obtain ⟨a, ha, rfl⟩ := map_ok.mp hrun
            obtain ⟨hoverrun', hrest', P, hP, hreplay⟩ :=
              h c.next.2 a c' hoverrun1 ((hc ▸ hsource).mono hsuffix.isInfix) ha
            refine ⟨hoverrun', hrest'.trans hsuffix, _, ⟨P, hP, rfl⟩, fun K hK => ?_⟩
            obtain ⟨hahead', hrun'⟩ := hreplay K (hR a _ _ hK)
            refine ⟨?_, fun d hd => ?_⟩
            · rw [hahead]
              exact .further hahead'
            · have hsolid : solid [Token.comma, .space] = [.comma] := rfl
              obtain ⟨hpeek, hfaces⟩ := Faces.next (P := [.comma, .space]) (K := P ++ K) hd hsolid
              obtain ⟨d', hd', hfaces'⟩ := hrun' d.next.2 hfaces
              refine ⟨d', bind_ok.mpr ⟨true, d.next.2, ?_, map_ok.mpr ⟨a, hd', rfl⟩⟩, hfaces'⟩
              have hrole := (hS _ _ hahead').front
              rw [← hfaces.coming, frontOf_coming, frontOf_coming] at hrole
              rw [acceptSeparator_run, if_pos hpeek, ← endsList_role, ← hrole, endsList_role,
                hends]
              rfl
  · rw [if_neg hcomma] at hb
    obtain ⟨rfl, rfl⟩ := EStateM.Result.ok.inj hb
    obtain ⟨rfl, rfl⟩ := pure_ok.mp hrun
    refine ⟨hoverrun, List.suffix_refl _, [], rfl, fun K hK => ⟨.last ?_ hK, fun d hd => ⟨d,
      hpass d (hfront hd (hE _ _ hK)), hd⟩⟩⟩
    rwa [frontOf_coming]

/-- One or more items with commas between them, and behind them if `trailing` allows it. -/
theorem commaSeparatedWith {item : Parser α} {trailing : Bool} (h : Echoes ctx item I R S)
    (hl : Local (Follow StatementEnd) item)
    (hR : ∀ a T T', BehindItem trailing S E T T' → R a T T')
    (hS : ∀ T T', S T T' → Shadows 1 T T') (hE : ∀ T T', E T T' → frontOf T' ≠ .comma) :
    Echoes ctx (Parser.commaSeparatedWith trailing item)
      (fun items P => ∃ parts, Each I items parts ∧ P = listed parts ∧ items ≠ [])
      (fun _ => E) S := by
  refine (h.behind hR).bind fun first P hP => ?_
  refine (many (.item (.acceptSeparator trailing) hl) (another h hR hS hE)).bind
    fun rest P' hP' => .pure ?_ fun _ _ h => h
  obtain ⟨parts, hparts, rfl⟩ := hP'
  obtain ⟨parts', hparts', hlisted⟩ := Each.listed hP hparts
  exact ⟨parts', hparts', by rw [← hlisted, List.append_nil], by simp⟩

/-- The options decide about a comma behind the items. -/
theorem commaSeparated {item : Parser α} (h : Echoes ctx item I R S)
    (hl : Local (Follow StatementEnd) item)
    (hR : ∀ a T T', BehindItem ctx.options.trailingCommas S E T T' → R a T T')
    (hS : ∀ T T', S T T' → Shadows 1 T T') (hE : ∀ T T', E T T' → frontOf T' ≠ .comma) :
    Echoes ctx (Parser.commaSeparated item)
      (fun items P => ∃ parts, Each I items parts ∧ P = listed parts ∧ items ≠ [])
      (fun _ => E) S :=
  .read (commaSeparatedWith h hl hR hS hE)

/-- Any number of items, up to a sign. -/
theorem commaSeparatedUntil {item : Parser α} {close : Token} (hclose : close.IsSign)
    (h : Echoes ctx item I R S) (hl : Local (Follow StatementEnd) item)
    (hR : ∀ a T T', BehindItem ctx.options.trailingCommas S (Facing close) T T' → R a T T')
    (hS : ∀ T T', S T T' → Shadows 1 T T' ∧ frontOf T' ≠ .comma) (hcomma : close ≠ .comma) :
    Echoes ctx (Parser.commaSeparatedUntil close item)
      (fun items P => ∃ parts, Each I items parts ∧ P = listed parts) (fun _ => Facing close)
      Anything := by
  intro c items c' hoverrun hsource hrun
  obtain ⟨l, c1, hpeek, hrun⟩ := bind_ok.mp hrun
  obtain ⟨rfl, rfl⟩ := peek_ok.mp hpeek
  -- what is read in front of the sign that closes the list
  have hempty : ∀ d : Cursor, d.peek.token = close →
      Parser.commaSeparatedUntil close item ctx d = .ok [] d := by
    intro d hd
    rw [Parser.commaSeparatedUntil, bind_run (peek_ok.mpr ⟨rfl, rfl⟩), if_pos hd]
    rfl
  have hfront : ∀ {T : List Token} {K : List Token} {d : Cursor}, d.Faces K →
      Facing close T (solid K) → d.peek.token = close := by
    rintro T K d hd ⟨U, U', -, hK⟩
    rw [← frontOf_coming, hd.coming, hK, frontOf_cons]
  have hpeeks : ∀ d : Cursor, d.peekTokens 2 = [.comma, close] ↔
      d.peek.token = .comma ∧ (d.peekNth 1).token = close := fun d => by
    simp [peekTokens_two, Cursor.peek]
  by_cases hnone : c.peek.token = close
  · rw [if_pos hnone] at hrun
    obtain ⟨rfl, rfl⟩ := pure_ok.mp hrun
    exact ⟨hoverrun, List.suffix_refl _, [], ⟨[], .nil, rfl⟩, fun K hK => ⟨trivial, fun d hd =>
      ⟨d, hempty d (hfront hd hK), hd⟩⟩⟩
  rw [if_neg hnone] at hrun
  obtain ⟨ctx', c1, hread, hrun⟩ := bind_ok.mp hrun
  obtain ⟨rfl, rfl⟩ := read_ok.mp hread
  obtain ⟨cursor, c1, hget, hrun⟩ := bind_ok.mp hrun
  obtain ⟨rfl, rfl⟩ := get_ok.mp hget
  by_cases hlone : (ctx.options.trailingCommas &&
      c.peekTokens 2 = [.comma, close]) = true
  · -- a lone comma is not printed
    rw [if_pos hlone] at hrun
    obtain ⟨l, c1, hnext, hrun⟩ := bind_ok.mp hrun
    obtain ⟨rfl, rfl⟩ := pure_ok.mp hrun
    obtain ⟨rfl, rfl⟩ := Prod.ext_iff.mp (next_ok.mp hnext)
    obtain ⟨hcomma, hnext⟩ := (hpeeks c).mp (by simpa using (Bool.and_eq_true_iff.mp hlone).2)
    cases hc : c.rest with
    | nil =>
        rw [peek_eq, hc] at hcomma
        cases hcomma
    | cons l w =>
        obtain ⟨-, hoverrun1, hrest1, -⟩ := next_of_cons hoverrun hc
        refine ⟨hoverrun1, ?_, [], ⟨[], .nil, rfl⟩, fun K hK => ⟨trivial, fun d hd =>
          ⟨d, hempty d (hfront hd hK), hd⟩⟩⟩
        rw [hrest1]
        exact (List.dropWhile_suffix _).trans (List.suffix_cons l w)
  · rw [if_neg hlone] at hrun
    obtain ⟨hoverrun', hrest, P, ⟨parts, hparts, rfl, -⟩, hreplay⟩ :=
      commaSeparated h hl hR (fun T T' h => (hS T T' h).1) (by
        rintro _ _ ⟨U, U', -, rfl⟩
        exact hcomma) c items c' hoverrun hsource hrun
    refine ⟨hoverrun', hrest, _, ⟨parts, hparts, rfl⟩, fun K hK => ⟨trivial, fun d hd => ?_⟩⟩
    obtain ⟨hahead, hrun'⟩ := hreplay K hK
    obtain ⟨hshadows, hne⟩ := hS _ _ hahead
    have hrole := hshadows.front
    rw [← hd.coming, frontOf_coming] at hne
    rw [← hd.coming, frontOf_coming, frontOf_coming] at hrole
    obtain ⟨d', hd', hfaces⟩ := hrun' d hd
    refine ⟨d', ?_, hfaces⟩
    rw [Parser.commaSeparatedUntil, bind_run (peek_ok.mpr ⟨rfl, rfl⟩), if_neg fun heq =>
      hnone ((Token.eq_sign_of_role hrole hclose).mpr heq), bind_run (read_ok.mpr ⟨rfl, rfl⟩),
      bind_run (get_ok.mpr ⟨rfl, rfl⟩), if_neg]
    · exact hd'
    · intro hlone
      exact hne ((hpeeks d).mp (by simpa using (Bool.and_eq_true_iff.mp hlone).2)).1

/-- What stands behind a space. -/
theorem trailing {item : Parser α} {g : α → String}
    (h : Echoes ctx item (fun a P => Prints ctx (g a) P) R S) :
    Echoes ctx item (fun a P => Trails ctx (" " ++ g a) P) R S :=
  h.spaced.print fun _ _ ⟨_, hP, ha⟩ => hP ▸ ha.trails

/-- What may stand behind a space. -/
theorem optional {item : Parser α} {g : α → String}
    (h : Echoes ctx item (fun a P => Prints ctx (g a) P) (fun _ => E) S) :
    Echoes ctx (some <$> item) (fun o P => Trails ctx (o.elim "" fun a => " " ++ g a) P)
      (fun _ => E) S := .map h.trailing

/-- What is left out is not printed. -/
theorem missing {g : α → String} : Echoes ctx (Pure.pure none)
    (fun o P => Trails ctx (o.elim "" g) P) (fun _ => S) S := pure .nil fun _ _ h => h

/-! ## Parentheses -/

/-- What stands in parentheses. -/
theorem parenthesized {inner : Parser α}
    (h : Echoes ctx inner I (fun _ => Facing .rparen) S) :
    Echoes ctx (Parser.parenthesized inner)
      (fun v P => ∃ P', I v P' ∧ P = .lparen :: (P' ++ [.rparen])) (fun _ => Anything)
      (Shadows n) := by
  refine expect_behind (N := [.lparen]) trivial rfl ((h.front fun _ _ _ => trivial).bind
    fun v P hP => after (expect (N := [.rparen]) trivial rfl) (.pure ⟨P, hP, by simp⟩
      fun _ _ h => h))

/-- A list in parentheses. -/
theorem parenthesizedList {item : Parser α} (h : Echoes ctx item I R S)
    (hl : Local (Follow StatementEnd) item)
    (hR : ∀ a T T', BehindItem false S (Facing .rparen) T T' → R a T T')
    (hS : ∀ T T', S T T' → Shadows 1 T T') :
    Echoes ctx (Parser.parenthesizedList item)
      (fun items P => ∃ parts, Each I items parts ∧ items ≠ [] ∧
        P = .lparen :: (listed parts ++ [.rparen]))
      (fun _ => Anything) (Shadows n) := by
  refine (parenthesized (commaSeparatedWith h hl hR hS ?_)).print ?_
  · rintro _ _ ⟨U, U', -, rfl⟩
    exact nofun
  · rintro items _ ⟨_, ⟨parts, hparts, rfl, hne⟩, rfl⟩
    exact ⟨parts, hparts, hne, rfl⟩

end Echoes

end SchemaSql
