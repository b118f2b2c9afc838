import SchemaSql.Proofs.Comparison

/-! # Two runs of the readers for names and literals

    A name is one token, and what it is made of does not depend on where the token stands.
    Names with hyphens see blanks and exist in one dialect only, so a comparison has to say
    itself that names are read alike.  Where both runs have one dialect, it is enough to know
    this of the hyphens (`Ident.parse_steady_of_hyphens`). -/

namespace SchemaSql

open Cursor SchemaSql.Parser Comparison

variable {K : Comparison}

namespace Ident

/-- Names are read alike where the dialects are the same and hyphens are read alike. -/
theorem parse_steady_of_hyphens [Lawful K] (hdialects : ∀ d d', K.dialects d d' → d = d')
    (hhyphens : ∀ name, K.Steady (parseHyphenated name)) (inFrom : Bool) :
    K.Steady (parse inFrom) := by
  rw [parse_eq]
  refine .next_token (fun token l l' h => .read fun ctx ctx' hctx => ?_) fun h =>
    .read fun ctx ctx' => .expected _ h
  have hstart : hyphenStart inFrom ctx.toSettings ⟨token, l⟩ =
      hyphenStart inFrom ctx'.toSettings ⟨token, l'⟩ := by
    simp only [hyphenStart, hdialects _ _ hctx.dialect]
  have hname : ofToken ⟨token, l⟩ = ofToken ⟨token, l'⟩ := rfl
  rw [← hstart, ← hname]
  cases hyphenStart inFrom ctx.toSettings ⟨token, l⟩ with
  | some name =>
      exact (Alike.iterate_eq parseHyphenated_shortens parseHyphenated_shortens hhyphens
        name).next fun _ => .pure rfl
  | none =>
      cases ofToken ⟨token, l⟩ with
      | some name => exact .pure rfl
      | none => exact .expected _ h

variable [Dialectal K]

theorem parse_steady (inFrom : Bool) : K.Steady (parse inFrom) := Dialectal.ident inFrom

theorem parseList_steady : K.Steady parseList :=
  .parenthesizedList (parse_local false) (parse_local false) (parse_steady false)

/-- At the end of the text, what was looked at for an alias is put back. -/
theorem parseAlias_steady (reserved : List Keyword) : K.Steady (parseAlias reserved) := by
  rw [parseAlias_eq]
  refine (Steady.acceptKeyword .as).next fun afterAs => ?_
  refine .next_or (fun token l l' h => ?_) fun h ctx ctx' c d _ hback => ?_
  · have halias : aliasOf reserved afterAs ⟨token, l⟩ = aliasOf reserved afterAs ⟨token, l'⟩ := rfl
    rw [← halias]
    cases aliasOf reserved afterAs ⟨token, l⟩ with
    | some name => exact .pure rfl
    | none =>
        exact .ite ((Alike.expected (V := Eq) _ h).next fun _ => Alike.back.next fun _ => .pure rfl)
          (Alike.back.next fun _ => .pure rfl)
  · cases afterAs with
    | true => exact .error (Lawful.refuses (.expected _) (fun _ => rfl) h)
    | false => exact .ok rfl hback

end Ident

namespace ObjectName

variable [Dialectal K]

theorem parseIn_steady (inFrom : Bool) : K.Steady (parseIn inFrom) :=
  (Ident.parse_steady inFrom).next fun _ =>
    (Alike.many_test ⟨Local.accept (by simp [EndMark]), .accept (by simp)⟩
      (Ident.parse_local inFrom) (Ident.parse_local inFrom) (.accept (by simp))
      (Ident.parse_steady inFrom)).next fun _ => .pure rfl

theorem parse_steady : K.Steady parse := parseIn_steady false

end ObjectName

namespace Literal

variable [Lawful K]

/-- A string is one token. -/
theorem parseString_steady : K.Steady parseString :=
  .next_token (fun token l l' h => by
    dsimp only
    split
    · exact .pure rfl
    · exact .pure rfl
    · exact .expected _ h) fun h => .expected _ h

/-- An error about a number says where the number stands. -/
theorem parseCount_steady : K.Steady parseCount :=
  .next_token (fun token l l' h => by
    dsimp only
    split
    · split
      · exact .pure rfl
      · exact .throw (Lawful.refuses (fun t => .badInteger _ _ t.location) (fun _ => rfl) h)
    · exact .expected _ h) fun h => .expected _ h

end Literal

end SchemaSql
