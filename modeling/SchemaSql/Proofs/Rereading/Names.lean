import SchemaSql.Proofs.Rereading.Loops
import SchemaSql.Proofs.Spelling.Names

/-! # Echoes of names, literals and counts

    A part of a name is printed as the token that it was read from, and so is a literal.  A
    count is printed without leading zeros, and read as the same count. -/

namespace SchemaSql

open Cursor SchemaSql.Parser

variable {ctx : Context} {n : Nat} {t : Token} {part : Ident}

/-! ## Counts -/

theorem countFrom_le {m c : Nat} {cs : List Char} (hm : m ≤ maxCount)
    (h : countFrom m cs = .ok c) : c ≤ maxCount := by
  induction cs generalizing m with
  | nil =>
      obtain rfl := Except.ok.inj h
      exact hm
  | cons x cs ih =>
      simp only [countFrom] at h
      split at h
      · cases h
      · split at h
        · next hle => exact ih hle h
        · cases h

/-- A count fits into 64 bits. -/
theorem count_le {digits : String} {c : Nat} (h : count digits = .ok c) : c ≤ maxCount := by
  unfold count at h
  split at h
  · cases h
  · cases h
  · exact countFrom_le (Nat.zero_le _) h
  · exact countFrom_le (Nat.zero_le _) h

/-- Digits are counted up if their number fits. -/
theorem countFrom_digits {m : Nat} {cs : List Char} (hdigits : ∀ x ∈ cs, x.isDigit = true)
    (h : Nat.ofDigitChars 10 cs m ≤ maxCount) :
    m ≤ Nat.ofDigitChars 10 cs m ∧ countFrom m cs = .ok (Nat.ofDigitChars 10 cs m) := by
  induction cs generalizing m with
  | nil => exact ⟨Nat.le_refl m, rfl⟩
  | cons x cs ih =>
      obtain ⟨hx, hcs⟩ := List.forall_mem_cons.mp hdigits
      rw [Nat.ofDigitChars_cons] at h ⊢
      obtain ⟨hle, hcount⟩ := ih hcs h
      refine ⟨by omega, ?_⟩
      rw [countFrom, Nat.mul_comm m, if_neg (by simp [hx])]
      simp only [hcount]
      exact if_pos (hle.trans h)

/-- The text of a count is read as that count. -/
theorem count_toString {c : Nat} (h : c ≤ maxCount) : count (toString c) = .ok c := by
  have hdigits : ∀ x ∈ Nat.toDigits 10 c, x.isDigit = true := fun x =>
    Nat.isDigit_of_mem_toDigits (by decide) (by decide)
  have hvalue : Nat.ofDigitChars 10 (Nat.toDigits 10 c) 0 = c := by simp
  have hcount : countFrom 0 (Nat.toDigits 10 c) = .ok c := by
    obtain ⟨-, hcount⟩ := countFrom_digits (m := 0) hdigits (by rwa [hvalue])
    rwa [hvalue] at hcount
  rw [count, Nat.toString_eq_repr, Nat.toList_repr]
  split
  · next hnil => exact absurd hnil Nat.toDigits_ne_nil
  · next hplus => exact absurd (hdigits '+' (by simp [hplus])) (by decide)
  · next hplus => exact absurd (hdigits '+' (by simp [hplus])) (by decide)
  · exact hcount

/-- A count is printed in digits. -/
theorem spelled_count {d : Dialect} (hd : d ∈ Dialect.builtin) (u : Bool) (c : Nat) :
    (Token.number (toString c) false).Spelled d u := by
  cases hc : Nat.toDigits 10 c with
  | nil => exact absurd hc Nat.toDigits_ne_nil
  | cons x cs =>
      have hdigits : ∀ y ∈ x :: cs, y.isDigit = true := fun y hy =>
        Nat.isDigit_of_mem_toDigits (by decide) (by decide) (hc ▸ hy)
      have htext : toString c = String.ofList (x :: cs) := by
        rw [← hc, ← Nat.toList_repr, String.ofList_toList, Nat.toString_eq_repr]
      obtain ⟨hx, hcs⟩ := List.forall_mem_cons.mp hdigits
      rw [htext]
      exact .number (Dialect.startsNumber hd hx) ⟨cs, hcs, .inl rfl⟩ false

variable [hd : Fact (ctx.dialect ∈ Dialect.builtin)]

namespace Literal

/-- The count that a token stands for. -/
def countOf : Token → Option Nat
  | .number digits _ => match count digits with
    | .ok c => some c
    | .error _ => none
  | _ => none

theorem countOf_number {digits : String} {long : Bool} {c : Nat} :
    countOf (.number digits long) = some c ↔ count digits = .ok c := by
  rw [countOf]
  cases count digits <;> simp

/-- A count is printed in digits without leading zeros, which may differ from what was read. -/
theorem parseCount_echoes : Echoes ctx parseCount
    (fun c P => P = [.number (toString c) false] ∧ Prints ctx (toString c) P)
    (fun _ => Anything) (Shadows n) := by
  refine .take countOf (fun t => [.number (toString ((countOf t).getD 0)) false])
    (fun l c hc => ?_) (fun l hnone => ?_) rfl fun t c ht hc => ?_
  · obtain ⟨t, loc⟩ := l
    cases t with
    | number digits long => simp only [countOf_number.mp hc]
    | _ => cases hc
  · obtain ⟨t, loc⟩ := l
    cases t with
    | number digits long =>
        show Fails (match count digits with
          | .ok n => _
          | .error fault => _)
        cases hcount : count digits with
        | ok m => exact nomatch hnone.symm.trans (countOf_number.mpr hcount)
        | error fault => exact fun _ _ _ _ => throw_ne_ok
    | _ => exact .expected _ _
  · rw [hc]
    refine ⟨⟨rfl, by simp [Token.text], fun Q hQ => (spelled_count hd.out _ c).legible_cons hQ⟩,
      _, rfl, ?_, fun T T' _ => ?_⟩
    · cases t with
      | number digits long =>
          -- the digits are printed without leading zeros, and still fit
          exact countOf_number.mpr (count_toString (count_le (countOf_number.mp hc)))
      | _ => cases hc
    · cases t with
      | number digits long => exact .of_role rfl rfl
      | _ => cases hc

/-! ## Literals -/

/-- The string literal that a token stands for. -/
def stringOf : Token → Option Literal
  | .singleQuoted value => some (.singleQuoted value)
  | .doubleQuoted value => some (.doubleQuoted value)
  | _ => none

/-- A string is printed with the quotes that it was read with. -/
theorem parseString_echoes : Echoes ctx parseString (fun value P => Prints ctx value.text P)
    (fun _ => Anything) (Shadows n) := by
  refine .take stringOf (fun t => [t]) (fun l c hc => ?_) (fun l hnone => ?_) rfl
    fun t value ht hvalue => ?_
  · obtain ⟨t, loc⟩ := l
    cases t <;> first | (cases hc; done) | (obtain rfl := Option.some.inj hc; rfl)
  · obtain ⟨t, loc⟩ := l
    cases t <;> first | exact .expected _ _ | cases hnone
  · refine ⟨ht.prints.of_eq ?_ rfl, t, by simp [ht.solid], hvalue, fun T T' _ => .sign ?_⟩
    all_goals cases t <;> first | (cases hvalue; done) | (obtain rfl := Option.some.inj hvalue; rfl)

end Literal

/-! ## Names -/

/-- The token of a name is printed as the name. -/
theorem Token.Names.printed_eq (h : t.Names part) : t.printed = part.text := by
  cases t <;> first | (cases h; done) | (obtain rfl := Option.some.inj h; rfl)

/-- A part of a name ends in front of a period. -/
theorem Token.Names.stops_period {d : Dialect} [d.Regular] (h : t.Names part) :
    t.Stops d '.' := by
  cases t with
  | word w => exact fun _ => (Dialect.Regular.sign '.' (by decide)).2
  | singleQuoted value => exact (by decide : '.' ≠ '\'')
  | doubleQuoted value => exact (by decide : '.' ≠ '"')
  | _ => cases h

namespace Ident

omit hd in
/-- A name is one word, and it is printed as a word that names the same. -/
theorem parse_echoes_token : Echoes ctx (Ident.parse false)
    (fun name P => ∃ t, P = [t] ∧ t.Lucid ctx.dialect ctx.options.unescape ∧ t.Names name)
    (fun _ => Shadows n) (Shadows (n + 1)) := by
  refine .take (fun t => ofToken { token := t }) (fun t => [t]) (fun l name hname => ?_)
    (fun l hnone => ?_) rfl fun t name ht hname => ⟨⟨t, rfl, ht, hname⟩, t, by simp [ht.solid],
      hname, fun T T' h => .cons rfl h⟩
  · obtain ⟨t, loc⟩ := l
    cases t <;> first | (cases hname; done) | (obtain rfl := Option.some.inj hname; rfl)
  · obtain ⟨t, loc⟩ := l
    cases t <;> first | exact .expected _ _ | cases hnone

/-- A name is printed as it was read. -/
theorem parse_echoes : Echoes ctx (Ident.parse false) (fun name P => Prints ctx name.text P)
    (fun _ => Shadows n) (Shadows (n + 1)) :=
  parse_echoes_token.print fun _ _ ⟨_, hP, ht, hname⟩ => ht.prints.of_eq hname.printed_eq hP.symm

/-- Names in parentheses. -/
theorem parseList_echoes : Echoes ctx parseList
    (fun names P => names ≠ [] ∧
      Trails ctx ("(" ++ Text.commaSeparated (names.map Ident.text) ++ ")") P)
    (fun _ => Anything) (Shadows n) :=
  (Echoes.parenthesizedList (S := Shadows 1) parse_echoes (parse_local false)
    (fun _ _ _ _ => shadows_zero) fun _ _ h => h).print
    fun _ _ ⟨_, hparts, hne, hP⟩ => ⟨hne, hP ▸ (Prints.listing hparts).enclosed⟩

end Ident

namespace ObjectName

/-- The tokens that a name was read from make up its text. -/
theorem prints {name : ObjectName} {ts : List Token}
    (hlucid : ∀ t' ∈ t :: ts, t'.Lucid ctx.dialect ctx.options.unescape)
    (hparts : List.Forall₂ Token.Names (t :: ts) name.parts) :
    Prints ctx name.text (t :: dotted ts) := by
  have hall := (List.forall₂_and_left ..).mpr ⟨hlucid, hparts⟩
  refine .intro (textOf_dotted (hall.imp fun t part h => ?_)) fun Q hQ hlegible => ?_
  · rw [← h.1.printed, h.2.printed_eq]
  · refine legible_dotted (fun t' ht' => ⟨(hlucid t' ht').spelled, ?_⟩)
      (fun t' _ => hQ.stopsAt t') hlegible
    exact (((List.forall₂_and_left ..).mp (hparts.imp fun _ _ h =>
      ⟨h.stops_period, trivial⟩)).1 : ∀ t' ∈ t :: ts, t'.Stops ctx.dialect '.') t' ht'

/-- A part of a name behind a period. -/
def Part (ctx : Context) (part : Ident) (P : List Token) : Prop :=
  ∃ t, P = [.period, t] ∧ t.Lucid ctx.dialect ctx.options.unescape ∧ t.Names part

/-- Parts of a name behind the first one. -/
def Parts (ctx : Context) (parts : List Ident) (P : List Token) : Prop :=
  ∃ ts, P = dotted ts ∧ (∀ t ∈ ts, t.Lucid ctx.dialect ctx.options.unescape) ∧
    List.Forall₂ Token.Names ts parts

omit hd in
/-- Parts that are printed one by one make up the parts of a name. -/
theorem Parts.of_each {parts : List Ident} {Ps : List (List Token)}
    (h : Each (Part ctx) parts Ps) : Parts ctx parts Ps.flatten := by
  induction h with
  | nil => exact ⟨[], rfl, by simp, .nil⟩
  | cons hP _ ih =>
      obtain ⟨t, rfl, ht, hpart⟩ := hP
      obtain ⟨ts, hts, hlucid, hparts⟩ := ih
      exact ⟨t :: ts, by simp [hts], List.forall_mem_cons.mpr ⟨ht, hlucid⟩, .cons hpart hparts⟩

omit hd in
/-- The parts behind the first are read as long as there are periods. -/
theorem parts_echoes : Echoes ctx
    (many do if ← accept .period then some <$> Ident.parse false else return none)
    (Parts ctx) (fun _ => Shadows (n + 1)) (Shadows (n + 1)) := by
  have hpart : Echoes ctx (Ident.parse false) (fun part P => Part ctx part (.period :: P))
      (fun _ => Shadows (n + 1)) Anything :=
    Ident.parse_echoes_token.mono (fun part P ⟨t, hP, ht, hpart⟩ => ⟨t, by simp [hP], ht, hpart⟩)
      (fun _ _ _ h => h) fun _ _ _ => trivial
  refine (Echoes.many (I := Part ctx) (S := Shadows (n + 1)) (E := Shadows (n + 1))
    (.item (.accept (by simp [EndMark])) (Ident.parse_local false))
    (.accept_test (s := .period) (N := [.period]) trivial rfl (.map hpart)
      (.pure rfl fun _ _ h => h))).print ?_
  rintro parts _ ⟨Ps, hPs, rfl⟩
  exact .of_each hPs

/-- A name is its first part and those behind periods. -/
theorem parse_echoes : Echoes ctx ObjectName.parse (fun name P => Prints ctx name.text P)
    (fun _ => Shadows (n + 1)) (Shadows (n + 2)) := by
  refine Ident.parse_echoes_token.bind fun first P hP => parts_echoes.bind fun rest P' hP' =>
    .pure ?_ fun _ _ h => h
  obtain ⟨t, rfl, ht, hfirst⟩ := hP
  obtain ⟨ts, rfl, hts, hrest⟩ := hP'
  exact (prints (List.forall_mem_cons.mpr ⟨ht, hts⟩) (.cons hfirst hrest)).of_eq rfl (by simp)

end ObjectName

end SchemaSql
