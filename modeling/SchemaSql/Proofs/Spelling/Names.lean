import SchemaSql.Proofs.Denotation.Names
import SchemaSql.Proofs.Spelling.Scanned

/-! # Printed names — a name is read back from its text

    Each part of a name is printed as the token that it was read from, or as one that is read
    in the same way: the quotes of a quoted identifier do not occur in it, so that escaping has
    nothing to do there.  Only a string literal may change, which `Ident.ReadsBack` rules out. -/

namespace SchemaSql

open Token Text

/-- A part of a name that is a string literal is read back. -/
def Ident.ReadsBack (ctx : Context) (part : Ident) : Prop :=
  ∀ q ∈ part.quote, ctx.dialect.OpensString q →
    lex ctx.dialect ctx.options.unescape part.text = .ok [⟨literal q part.value, .start⟩]

/-- A part of a name is printed as a token that was read for it, and so as a token that is
    read for it again. -/
theorem Token.Names.printed {ctx : Context} [ctx.dialect.Regular] {t : Token} {part : Ident}
    (h : t.Names part) (hscanned : t.Scanned ctx.dialect ctx.options.unescape)
    (hback : part.ReadsBack ctx) : t.text = part.text ∧
      t.Spelled ctx.dialect ctx.options.unescape ∧ t.Stops ctx.dialect '.' := by
  have hword : ∀ {w : Word}, (Token.word w).Scanned ctx.dialect ctx.options.unescape →
      (Token.word w).text = (Ident.ofWord w).text ∧
        (Token.word w).Spelled ctx.dialect ctx.options.unescape ∧
        (Token.word w).Stops ctx.dialect '.' := fun h =>
    ⟨(h.word true).1.symm, (h.word _).2, fun _ => (Dialect.Regular.sign '.' (by decide)).2⟩
  cases hscanned with
  | bareWord cs hc =>
      obtain rfl := Option.some.inj h
      exact hword (.bareWord cs hc)
  | @string q _ units hq _ =>
      generalize stringValue _ q units = v at h
      obtain rfl : ⟨v, some q⟩ = part := by
        rcases hq with rfl | ⟨rfl, -⟩ <;> exact Option.some.inj h
      have htext : (literal q v).text = (⟨v, some q⟩ : Ident).text := by
        rcases hq with rfl | ⟨rfl, -⟩ <;> rfl
      refine ⟨htext, .literal hq ((lex_literal hq).mp ?_), hq.stops_literal.mpr ?_⟩
      · rw [htext]
        exact hback q rfl hq
      · rcases hq with rfl | ⟨rfl, -⟩ <;> decide
  | quotedWord cs hq =>
      obtain rfl := Option.some.inj h
      exact hword (.quotedWord cs hq)
  | blank | number | char => cases h
  | sign hsign => cases t <;> first | exact hsign.elim | cases h

theorem Token.Names.isWhitespace {t : Token} {part : Ident} (h : t.Names part) :
    t.isWhitespace = false := by
  cases t <;> first | rfl | exact nomatch h

theorem solid_dotted {ts : List Token} (h : ∀ t ∈ ts, t.isWhitespace = false) :
    solid (dotted ts) = dotted ts := by
  induction ts with
  | nil => rfl
  | cons t ts ih =>
      have hperiod : Token.isWhitespace .period = false := rfl
      simp [hperiod, h t (by simp), ih fun t' ht' => h t' (List.mem_cons_of_mem t ht')]

/-- Names with periods between them are read back, since a period stops every name. -/
theorem legible_dotted {d : Dialect} [d.Regular] {u : Bool} {t : Token} {ts rest : List Token}
    (h : ∀ t' ∈ t :: ts, t'.Spelled d u ∧ t'.Stops d '.')
    (hstop : ∀ t' ∈ t :: ts, t'.StopsAt d rest) (hrest : Legible d u rest) :
    Legible d u (t :: (dotted ts ++ rest)) := by
  induction ts generalizing t with
  | nil => exact ⟨(h t (by simp)).1, hstop t (by simp), hrest⟩
  | cons t' ts ih =>
      obtain ⟨hspelled, hperiod⟩ := h t (by simp)
      refine ⟨hspelled, ?_, spelled_of_isSign trivial, fun _ _ => trivial,
        ih (fun t'' ht'' => h t'' (List.mem_cons_of_mem t ht''))
          fun t'' ht'' => hstop t'' (List.mem_cons_of_mem t ht'')⟩
      rintro x hx
      obtain rfl : x = '.' := by simpa [Token.text] using hx.symm
      exact hperiod

/-- Names with periods between them make up the text of the path. -/
theorem textOf_dotted {t : Token} {ts : List Token} {parts : List Ident}
    (h : List.Forall₂ (fun t part => t.text = Ident.text part) (t :: ts) parts) :
    textOf (t :: dotted ts) = ".".intercalate (parts.map Ident.text) := by
  cases h with
  | @cons _ first _ rest hfirst hrest =>
      induction hrest generalizing t first with
      | nil => simp [hfirst]
      | @cons t' second ts rest hsecond hrest ih =>
          have hperiod : Token.text .period = "." := rfl
          rw [dotted_cons, textOf_cons, textOf_cons, ih hsecond, hperiod, hfirst]
          simp [String.append_assoc]

namespace ObjectName

variable {ctx : Context} {name : ObjectName} {t : Token} {ts : List Token}

/-- None of the tokens of a name is a blank. -/
theorem isWhitespace_tokens (h : List.Forall₂ Token.Names (t :: ts) name.parts) :
    ∀ t' ∈ t :: ts, t'.isWhitespace = false :=
  ((List.forall₂_and_left ..).mp (h.imp fun _ _ h => ⟨h.isWhitespace, h⟩)).1

theorem solid_tokens (h : List.Forall₂ Token.Names (t :: ts) name.parts) :
    solid (t :: dotted ts) = t :: dotted ts := by
  have hblank := isWhitespace_tokens h
  rw [solid_cons, hblank t (by simp), solid_dotted fun t' ht' => hblank t' (by simp [ht'])]
  rfl

/-- The tokens that a name was read from make up its text, and they are read back from it. -/
theorem printed [ctx.dialect.Regular]
    (hscanned : ∀ t' ∈ t :: ts, t'.Scanned ctx.dialect ctx.options.unescape)
    (hparts : List.Forall₂ Token.Names (t :: ts) name.parts)
    (hback : ∀ part ∈ name.parts, part.ReadsBack ctx) :
    textOf (t :: dotted ts) = name.text ∧
      Legible ctx.dialect ctx.options.unescape (t :: dotted ts) := by
  have hall := (List.forall₂_and_left ..).mpr
    ⟨hback, ((List.forall₂_and_left ..).mpr ⟨hscanned, hparts⟩).flip⟩
  have hprinted := hall.flip.imp fun _ _ h => h.2.2.printed h.2.1 h.1
  have hspelled := ((List.forall₂_and_left ..).mp (hprinted.imp fun _ _ h => ⟨h.2, h.1⟩)).1
  refine ⟨textOf_dotted (hprinted.imp fun _ _ h => h.1), ?_⟩
  have hlegible : Legible ctx.dialect ctx.options.unescape (t :: (dotted ts ++ [])) :=
    legible_dotted hspelled (by simp [StopsAt]) trivial
  rwa [List.append_nil] at hlegible

end ObjectName

end SchemaSql
