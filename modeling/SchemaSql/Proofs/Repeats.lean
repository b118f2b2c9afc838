import SchemaSql.Proofs.Repeats.Rules
import SchemaSql.Proofs.Repeats.Settings

/-! # Repeats — settings that may be given again, and rules that may not

    The settings of an explanation and the rules of a foreign key are both kept in keyed lists,
    but a setting that is given again changes its value, and a rule for an event that has one is
    an error. -/

namespace SchemaSql

open Cursor SchemaSql.Parser

namespace Keyed

/-- Settings and rules that are put one after the other where there are none leave one entry for
    each kind, where the kind was used first and with what was put last.  A run of settings is
    read to what its settings leave; rules are read as they are written if they are for different
    events, and the first one for an event that has one is an error at its word `ON`. -/
theorem one_entry_per_key :
    (∀ (e : Explain) (options : List ExplainOption), e.options = [] →
      options.foldl Explain.addOption e =
        { e with options := settled ExplainOption.kind options }) ∧
    (∀ (fk : ForeignKey) (rules : List ReferentialRule), fk.rules = [] →
      rules.foldl (fun fk rule => fk.setAction rule.event rule.action) fk =
        { fk with rules := settled ReferentialRule.event rules }) ∧
    (∀ (ctx : Context) (keyword : ExplainKeyword) (options : List ExplainOption) (c : Cursor)
      (rest : List Located), ExplainOption.Run options c.ahead rest →
      ∃ c1 : Cursor, c1.ahead = rest ∧
        Explain.parse keyword ctx c = match Explain.parseTarget ctx c1 with
          | .ok target c' =>
            .ok { keyword, options := settled ExplainOption.kind options, target } c'
          | .error e c' => .error e c') ∧
    ∀ (ctx : Context) (name : Option Ident) (columns referred : List Ident) (table : ObjectName)
      (written : List ForeignKey.WrittenRule) (rest : List Located) (c : Cursor),
      ForeignKey.Head columns table referred c.ahead
        (written.flatMap ForeignKey.WrittenRule.tokens ++ rest) →
      ((rest.headD .eof).token.keyword? ≠ some .on →
        (written.map ForeignKey.WrittenRule.event).Nodup →
        ∃ (c1 : Cursor) (states : List ConstraintState) (c' : Cursor), c1.ahead = rest ∧
          many ConstraintState.parse ctx c1 = .ok states c' ∧
          ForeignKey.parse name ctx c = .ok
            { name, columns, referredTable := table, referredColumns := referred,
              rules := written.map ForeignKey.WrittenRule.rule, states } c') ∧
      (¬ (written.map ForeignKey.WrittenRule.event).Nodup →
        ∃ before r after, written = before ++ r :: after ∧
          (before.map ForeignKey.WrittenRule.event).Nodup ∧
          r.event ∈ before.map ForeignKey.WrittenRule.event ∧
          ∃ c', ForeignKey.parse name ctx c =
            .error (.repeatedRule r.event r.on.location) c') := by
  refine ⟨fun e options h => Explain.foldl_addOption_settled h options,
    fun fk rules h => ForeignKey.foldl_setAction_settled h rules,
    fun ctx keyword options c rest => Explain.parse_run keyword, ?_⟩
  intro ctx name columns referred table written rest c hhead
  refine ⟨fun hrest hdistinct => ForeignKey.parse_distinct name hhead hrest hdistinct rfl,
    fun hrepeat => ?_⟩
  -- the first event that was there before is where the reader stops
  obtain ⟨before, r, after, rfl, hdistinct, hmem⟩ :=
    (nodup_or_repeat ForeignKey.WrittenRule.event written).resolve_left hrepeat
  exact ⟨before, r, after, rfl, hdistinct, hmem,
    ForeignKey.parse_repeated name hhead hdistinct hmem c rfl⟩

/-- A setting that is given twice, and a foreign key with two rules for one event. -/
theorem one_entry_per_key_twice :
    let ctx : Context := { dialect := .generic }
    let word (k : Keyword) (column : Nat) : Located :=
      ⟨.word { value := k.name, keyword := some k }, ⟨1, column⟩⟩
    let name (column : Nat) : Located := ⟨.word { value := "t" }, ⟨1, column⟩⟩
    let options : List ExplainOption :=
      [⟨.analyze, some "TRUE"⟩, ⟨.verbose, some "ON"⟩, ⟨.analyze, some "FALSE"⟩]
    let kept : List ExplainOption := [⟨.analyze, some "FALSE"⟩, ⟨.verbose, some "ON"⟩]
    let rules : List ReferentialRule := [⟨.update, .cascade⟩, ⟨.update, .restrict⟩]
    let t : Ident := { value := "t" }
    let explain : Explain := { keyword := .explain, target := .table ⟨[t]⟩ }
    let fk : ForeignKey := { columns := [t], referredTable := ⟨[t]⟩, referredColumns := [] }
    let settings := ofTokens [word .analyze 9, word .true 17, word .verbose 22, word .on 30,
      word .analyze 33, word .false 41, name 47]
    let key := ofTokens [word .key 1, ⟨.lparen, ⟨1, 5⟩⟩, name 6, ⟨.rparen, ⟨1, 7⟩⟩,
      word .references 9, name 20, word .on 22, word .update 25, word .cascade 32,
      word .on 40, word .update 43, word .restrict 50]
    options.foldl Explain.addOption explain = { explain with options := kept } ∧
    rules.foldl (fun fk rule => fk.setAction rule.event rule.action) fk =
      { fk with rules := [⟨.update, .restrict⟩] } ∧
    (∃ c1 : Cursor, c1.ahead = [name 47] ∧
      Explain.parse .explain ctx settings = match Explain.parseTarget ctx c1 with
        | .ok target c' => .ok { keyword := .explain, options := kept, target } c'
        | .error e c' => .error e c') ∧
    ∃ c', ForeignKey.parse none ctx key = .error (.repeatedRule .update ⟨1, 40⟩) c' := by
  intro ctx word name options kept rules t explain fk settings key
  obtain ⟨hsettings, hrules, hrun, hkey⟩ := one_entry_per_key
  refine ⟨hsettings explain options rfl, hrules fk rules rfl, ?_, ?_⟩
  · have hswitch : ∀ kind k k' column column', kind ∈ ExplainOption.switches →
        ExplainOption.kindKeywords kind = [k] → k' ∈ [Keyword.true, .false, .on] →
        ExplainOption.Spelled ⟨kind, some k'.name⟩ [word k column, word k' column'] := by
      intro kind k k' column column' hkind hk hk'
      have hspell : Spell (ExplainOption.kindKeywords kind) [word k column] := by
        rw [hk]
        exact spell_one.mpr ⟨_, rfl, rfl⟩
      exact .switch hkind hspell (.inl ⟨k', hk', rfl, rfl⟩)
    refine hrun ctx .explain options settings [name 47] ?_
    refine .cons (hswitch .analyze .analyze .true 9 17 (by decide) rfl (by decide))
      (fun h => nomatch h.1) ?_
    refine .cons (hswitch .verbose .verbose .on 22 30 (by decide) rfl (by decide))
      (fun h => nomatch h.1) ?_
    refine .cons (hswitch .analyze .analyze .false 33 41 (by decide) rfl (by decide))
      (fun h => nomatch h.1) ?_
    exact .nil fun k _ h => nomatch h
  · let cascade : ForeignKey.WrittenRule :=
      ⟨⟨.update, .cascade⟩, word .on 22, [word .update 25, word .cascade 32], rfl,
        spell_two.mpr ⟨_, _, rfl, rfl, rfl⟩⟩
    let restrict : ForeignKey.WrittenRule :=
      ⟨⟨.update, .restrict⟩, word .on 40, [word .update 43, word .restrict 50], rfl,
        spell_two.mpr ⟨_, _, rfl, rfl, rfl⟩⟩
    have hcolumns : ForeignKey.Enclosed [⟨.lparen, ⟨1, 5⟩⟩, name 6, ⟨.rparen, ⟨1, 7⟩⟩] [t] :=
      .mk rfl (.mk rfl .nil) rfl
    obtain ⟨-, hrepeated⟩ := hkey ctx none [t] [] ⟨[t]⟩ [cascade, restrict] [] key
      (.bare rfl hcolumns rfl (.mk rfl .nil) (by decide))
    obtain ⟨before, r, after, hwritten, -, hmem, hrun⟩ := hrepeated (by decide)
    -- the first rule repeats nothing, so it is the second one
    rcases before with _ | ⟨first, _ | ⟨second, before⟩⟩
    · exact nomatch hmem
    · obtain ⟨-, hrest⟩ := List.cons.inj hwritten
      obtain ⟨rfl, -⟩ := List.cons.inj hrest
      exact hrun
    · have hlength := congrArg List.length hwritten
      simp at hlength

end Keyed

end SchemaSql
