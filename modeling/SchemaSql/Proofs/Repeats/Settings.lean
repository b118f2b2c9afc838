import SchemaSql.Proofs.Explanations
import SchemaSql.Proofs.Stretches

/-! # Settings as they are written

    A setting may be written with or without a value, and a token that can be its value is.  A
    run of settings is therefore a list of spellings in which none goes on with the next token
    (`ExplainOption.Run`), up to something that starts no further setting.  It is read as it is
    written (`Run.yields`), and what is kept of it is what its settings come to
    (`Explain.parse_run`). -/

namespace SchemaSql

open Cursor SchemaSql.Parser

variable {ctx : Context} {w rest : List Located}

namespace ExplainOption

/-- The token is the value of a setting that can be on or off. -/
def IsFlag (t : Located) (value : String) : Prop :=
  (∃ k ∈ [Keyword.true, .false, .on], t.token.keyword? = some k ∧ value = k.name) ∨
    ((∀ k ∈ [Keyword.true, .false, .on], t.token.keyword? ≠ some k) ∧
      spelled "OFF" t = true ∧ value = "OFF")

/-- The settings that can be on or off. -/
def switches : List ExplainOptionKind := [.analyze, .verbose, .costs, .buffers]

/-- The tokens that a setting may be written with. -/
inductive Spelled : ExplainOption → List Located → Prop
  | bare {kind found} (hkind : kind ≠ .format) (h : Spell (kindKeywords kind) found) :
      Spelled ⟨kind, none⟩ found
  | switch {kind found t value} (hkind : kind ∈ switches)
      (h : Spell (kindKeywords kind) found) (ht : IsFlag t value) :
      Spelled ⟨kind, some value⟩ (found ++ [t])
  | format {found t name} (h : Spell (kindKeywords .format) found)
      (ht : t.token = .word name) : Spelled ⟨.format, some name.value⟩ (found ++ [t])

/-- The token would be part of the setting. -/
def Continues (o : ExplainOption) (t : Located) : Prop :=
  o.value = none ∧ ((o.kind ∈ switches ∧ ∃ value, IsFlag t value) ∨
    (o.kind = .plan ∧ t.token.keyword? = some .for))

/-- A run of settings, up to what starts no further one.  A token that may be part of a setting
    is. -/
inductive Run : List ExplainOption → List Located → List Located → Prop
  | nil {rest : List Located} (h : ∀ k ∈ starts, (rest.headD .eof).token.keyword? ≠ some k) :
      Run [] rest rest
  | cons {o options found} {w rest : List Located} (h : o.Spelled found)
      (hnext : ¬ o.Continues (w.headD .eof)) (more : Run options w rest) :
      Run (o :: options) (found ++ w) rest

theorem parseFlag_some {t : Located} {value : String} (h : IsFlag t value) :
    Yields ctx parseFlag (t :: w) (some value) w := by
  rcases h with ⟨k, hk, hkey, rfl⟩ | ⟨hkey, hoff, rfl⟩
  · exact (Yields.acceptOneOf hk hkey).bind (.pure _)
  · exact (Yields.acceptOneOf_none hkey).bind (.taken (.acceptSpelling hoff) (.pure _))

/-- What is no flag stays ahead. -/
theorem parseFlag_none (h : ∀ value, ¬ IsFlag (w.headD .eof) value) :
    Yields ctx parseFlag w none w := by
  have hkey : ∀ k ∈ [Keyword.true, .false, .on], (w.headD .eof).token.keyword? ≠ some k :=
    fun k hk hkey => h _ (.inl ⟨k, hk, hkey, rfl⟩)
  have hoff : ¬ spelled "OFF" (w.headD .eof) = true :=
    fun hoff => h _ (.inr ⟨hkey, hoff, rfl⟩)
  exact (Yields.acceptOneOf_none hkey).bind (.passed (.acceptSpelling_none hoff) (.pure _))

/-- Settings that can be on or off are read alike, each behind its keyword. -/
theorem parse_switch {kind : ExplainOptionKind} (hkind : kind ∈ switches) {found : List Located}
    (h : Spell (kindKeywords kind) found) {value : Option String} {w1 : List Located}
    (hflag : Yields ctx parseFlag w1 value w) :
    Yields ctx parse (found ++ w1) (some ⟨kind, value⟩) w := by
  have hvalue : Yields ctx (do return some ⟨kind, ← parseFlag⟩) w1
      (some (⟨kind, value⟩ : ExplainOption)) w := hflag.bind (.pure _)
  simp only [switches, List.mem_cons, List.not_mem_nil, or_false] at hkind
  rcases hkind with rfl | rfl | rfl | rfl
  all_goals
    obtain ⟨t, rfl, hkey⟩ := spell_one.mp h
    exact (Yields.acceptOneOf (by simp) hkey).bind hvalue

/-- A setting is read as it is written, unless the next token would be part of it. -/
theorem parse_spelled {o : ExplainOption} {found : List Located} (h : o.Spelled found)
    (hnext : ¬ o.Continues (w.headD .eof)) : Yields ctx parse (found ++ w) (some o) w := by
  cases h with
  | @bare kind found hkind h =>
      have hflag : kind ∈ switches → Yields ctx parseFlag w none w := fun hswitch =>
        parseFlag_none fun value hv => hnext ⟨rfl, .inl ⟨hswitch, value, hv⟩⟩
      cases kind with
      | format => exact absurd rfl hkind
      | plan =>
          obtain ⟨t, rfl, hkey⟩ := spell_one.mp h
          have hfor : (w.headD .eof).token.keyword? ≠ some .for :=
            fun hfor => hnext ⟨rfl, .inr ⟨rfl, hfor⟩⟩
          refine (Yields.acceptOneOf (by simp) hkey).bind ?_
          exact (Yields.acceptKeyword_none hfor).bind (.pure _)
      | planFor =>
          obtain ⟨t, t', rfl, hkey, hfor⟩ := spell_two.mp h
          refine (Yields.acceptOneOf (by simp) hkey).bind ?_
          exact (Yields.acceptKeyword hfor).bind (.pure _)
      -- the other kinds are those that can be on or off, here without a value
      | _ => exact parse_switch (by simp [switches]) h (hflag (by simp [switches]))
  | switch hkind h ht =>
      rw [List.append_assoc]
      exact parse_switch hkind h (parseFlag_some ht)
  | @format found t name h ht =>
      obtain ⟨t', rfl, hkey⟩ := spell_one.mp h
      have hname : Yields ctx parseFormat (t :: w) name.value w := by
        refine Yields.next.bind ?_
        rw [ht]
        exact .pure _
      exact (Yields.acceptOneOf (by simp) hkey).bind (hname.bind (.pure _))

theorem parse_none (h : ∀ k ∈ starts, (w.headD .eof).token.keyword? ≠ some k) :
    Yields ctx parse w none w := (Yields.acceptOneOf_none h).bind (.pure _)

theorem Spelled.ne_nil {o : ExplainOption} {found : List Located} (h : o.Spelled found) :
    found ≠ [] := by
  cases h with
  | @bare kind found hkind h =>
      rintro rfl
      cases kind <;> exact nomatch h
  | switch => simp
  | format => simp

/-- The options that are written are gathered one by one, the last first. -/
theorem Run.chain {options : List ExplainOption} (h : Run options w rest)
    (items : List ExplainOption) :
    Chain ctx (gather parse) items w (options.reverse ++ items) rest := by
  induction h generalizing items with
  | nil => exact .nil
  | @cons o options found w rest h hnext _ ih =>
      rw [List.reverse_cons, List.append_assoc]
      exact .append h.ne_nil ((parse_spelled h hnext).map _) (ih (o :: items))

/-- Behind the options no word of another one is ahead. -/
theorem Run.ends {options : List ExplainOption} (h : Run options w rest) :
    ∀ k ∈ starts, (rest.headD .eof).token.keyword? ≠ some k := by
  induction h with
  | nil h => exact h
  | cons _ _ _ ih => exact ih

/-- A run of settings is read as it is written. -/
theorem Run.yields {options : List ExplainOption} (h : Run options w rest) :
    Yields ctx (many parse) w options rest := by
  have hend : Yields ctx parse rest none rest := parse_none h.ends
  exact .many (by simpa using h.chain []) hend

end ExplainOption

/-- The settings of an explanation settle among its options, and its target is what is read
    behind them. -/
theorem Explain.parse_run (keyword : ExplainKeyword) {options : List ExplainOption} {c : Cursor}
    (h : ExplainOption.Run options c.ahead rest) : ∃ c1 : Cursor, c1.ahead = rest ∧
      parse keyword ctx c = match parseTarget ctx c1 with
        | .ok target c' =>
          .ok { keyword, options := Keyed.settled ExplainOption.kind options, target } c'
        | .error e c' => .error e c' := by
  have hoptions : Yields ctx (many ExplainOption.parse) c.ahead options rest := h.yields
  obtain ⟨c1, hrun, hc1⟩ := hoptions c rfl
  refine ⟨c1, hc1, ?_⟩
  rw [parse, bind_run hrun]
  simp only [foldl_addOption_settled, Parser.bind_apply]
  cases parseTarget ctx c1 with
  | ok => rfl
  | error => rfl

end SchemaSql
