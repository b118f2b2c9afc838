import SchemaSql.Proofs.Keyed
import SchemaSql.Proofs.Stretches

/-! # Rules as they are written

    A foreign key starts with its columns and with what they refer to (`ForeignKey.Head`), and
    goes on with rules (`ForeignKey.WrittenRule`).  Rules for different events are read as they
    are written (`chain_rules`); a rule for an event that has one ends the reading at its word
    `ON`, before anything is made of its action (`parseRule_repeated`). -/

namespace SchemaSql

open Cursor SchemaSql.Parser

variable {ctx : Context} {w rest : List Located}

/-- The keyword of an event. -/
def ReferentialEvent.keyword : ReferentialEvent → Keyword
  | .update => .update
  | .delete => .delete

/-- The keywords of an action. -/
def ReferentialAction.keywords : ReferentialAction → List Keyword
  | .cascade => [.cascade]
  | .setNull => [.set, .null]
  | .setDefault => [.set, .default]
  | .restrict => [.restrict]
  | .noAction => [.no, .action]

/-- A state is read or there is none; no error is possible. -/
theorem ConstraintState.parse_total : Total parse :=
  .test (.acceptKeyword _) (.pure _) <|
    .test (.acceptKeywords _) (.pure _) <|
    .test (.acceptKeywords _) (.pure _) <|
    .test (.acceptKeywords _) (.pure _) <|
    .test (.acceptKeyword _) (.pure _) <|
    .test (.acceptKeyword _) (.pure _) <|
    .test (.acceptKeyword _) (.pure _) <|
    .test (.acceptKeyword _) (.pure _) (.pure _)

namespace ForeignKey

/-- A rule as it is written: the word `ON`, and the words of an event and an action. -/
structure WrittenRule where
  rule     : ReferentialRule
  on       : Located
  words    : List Located
  startsOn : on.token.keyword? = some .on
  spelled  : Spell (rule.event.keyword :: rule.action.keywords) words

/-- The tokens of a written rule. -/
def WrittenRule.tokens (r : WrittenRule) : List Located := r.on :: r.words

/-- The event that a written rule is for. -/
def WrittenRule.event (r : WrittenRule) : ReferentialEvent := r.rule.event

/-- The events of rules are those that they were written with. -/
theorem map_event (written : List WrittenRule) :
    (written.map WrittenRule.rule).map ReferentialRule.event = written.map WrittenRule.event :=
  List.map_map

/-- An action is read from its words, whichever actions are tried before it. -/
theorem parseAction_yields {action : ReferentialAction} {found : List Located}
    (h : Spell action.keywords found) : Yields ctx parseAction (found ++ w) action w := by
  cases action with
  | restrict =>
      obtain ⟨t, rfl, hkey⟩ := spell_one.mp h
      exact .taken (.acceptKeyword hkey) (.pure _)
  | cascade =>
      obtain ⟨t, rfl, hkey⟩ := spell_one.mp h
      exact .passed (.acceptKeyword_none (by simp [hkey])) <|
        .taken (.acceptKeyword hkey) (.pure _)
  | setNull =>
      obtain ⟨t, t', rfl, hkey, -⟩ := spell_two.mp h
      exact .passed (.acceptKeyword_none (by simp [hkey])) <|
        .passed (.acceptKeyword_none (by simp [hkey])) <|
        .taken (.acceptKeywords h) (.pure _)
  | noAction =>
      obtain ⟨t, t', rfl, hkey, -⟩ := spell_two.mp h
      exact .passed (.acceptKeyword_none (by simp [hkey])) <|
        .passed (.acceptKeyword_none (by simp [hkey])) <|
        .passed (.acceptKeywords_none 0 (by simp [hkey])) <|
        .taken (.acceptKeywords h) (.pure _)
  | setDefault =>
      -- `SET NULL` has the same first word, so it is the second that tells
      obtain ⟨t, t', rfl, hkey, hkey'⟩ := spell_two.mp h
      exact .passed (.acceptKeyword_none (by simp [hkey])) <|
        .passed (.acceptKeyword_none (by simp [hkey])) <|
        .passed (.acceptKeywords_none 1 (by simp [hkey'])) <|
        .passed (.acceptKeywords_none 0 (by simp [hkey])) <|
        .taken (.acceptKeywords h) (.pure _)

/-- A key has an action for the events of its rules. -/
theorem isSome_action? {fk : ForeignKey} {event : ReferentialEvent} :
    (fk.action? event).isSome = true ↔ event ∈ fk.rules.map ReferentialRule.event := by
  rw [action?, Option.isSome_map, Keyed.isSome_find?]

/-- What is read behind the word `ON` once the event is known. -/
def behindEvent (fk : ForeignKey) (start : Located) (event : ReferentialEvent) :
    Parser (Option ForeignKey) := do
  if (fk.action? event).isSome then throw (.repeatedRule event start.location)
  return some (fk.setAction event (← parseAction))

/-- Up to its event, a rule is read the same way whether or not it is a repeat. -/
theorem parseRule_event (ctx : Context) (fk : ForeignKey) {start t : Located}
    {event : ReferentialEvent} (hstart : start.token.keyword? = some .on)
    (ht : t.token.keyword? = some event.keyword) {c : Cursor} (hc : c.ahead = start :: t :: w) :
    ∃ c1 : Cursor, c1.ahead = w ∧
      parseRule fk ctx c = behindEvent fk start event ctx c1 := by
  have hword : Yields ctx (acceptKeyword? .on) (start :: t :: w) (some start) (t :: w) :=
    .acceptWord? _ start _ (Denotes.hasKeyword_iff.mpr hstart)
  have hevent : Yields ctx (expectOneOf [.update, .delete]) (t :: w) event.keyword w :=
    .expectOneOf (by cases event <;> simp [ReferentialEvent.keyword]) ht
  obtain ⟨c1, hrun, hc1⟩ := hword c hc
  obtain ⟨c2, hrun', hc2⟩ := hevent c1 hc1
  refine ⟨c2, hc2, ?_⟩
  rw [parseRule, bind_run hrun]
  cases event with
  | update => exact bind_run hrun' _
  | delete => exact bind_run hrun' _

/-- A rule for a new event is added to the others. -/
theorem parseRule_new {fk : ForeignKey} (r : WrittenRule)
    (hnew : r.event ∉ fk.rules.map ReferentialRule.event) :
    Yields ctx (parseRule fk) (r.tokens ++ w)
      (some { fk with rules := fk.rules ++ [r.rule] }) w := by
  intro c hc
  obtain ⟨⟨event, action⟩, start, words, hstart, hspelled⟩ := r
  obtain ⟨t, found, ht, haction, rfl⟩ := List.forall₂_cons_left_iff.mp hspelled
  obtain ⟨c1, hc1, hrun⟩ := parseRule_event ctx fk hstart ht hc
  have hyields : Yields ctx parseAction (found ++ w) action w := parseAction_yields haction
  obtain ⟨d, hd, hahead⟩ := hyields c1 hc1
  refine ⟨d, ?_, hahead⟩
  have hnone : ¬ (fk.action? event).isSome = true := mt isSome_action?.mp hnew
  rw [hrun, behindEvent, if_neg hnone]
  refine bind_ok.mpr ⟨action, d, hd, ?_⟩
  rw [setAction, Keyed.upsert_new hnew]
  exact pure_ok.mpr ⟨rfl, rfl⟩

/-- A rule for an event that has one is an error at its word `ON`. -/
theorem parseRule_repeated {fk : ForeignKey} (r : WrittenRule)
    (hold : r.event ∈ fk.rules.map ReferentialRule.event) :
    Breaks ctx (parseRule fk) (r.tokens ++ w) (.repeatedRule r.event r.on.location) := by
  intro c hc
  obtain ⟨⟨event, action⟩, start, words, hstart, hspelled⟩ := r
  obtain ⟨t, found, ht, -, rfl⟩ := List.forall₂_cons_left_iff.mp hspelled
  obtain ⟨c1, -, hrun⟩ := parseRule_event ctx fk hstart ht hc
  refine ⟨c1, ?_⟩
  have hsome : (fk.action? event).isSome = true := isSome_action?.mpr hold
  rw [hrun, behindEvent, if_pos hsome]
  rfl

/-- Without the word `ON` there is no further rule. -/
theorem parseRule_none (fk : ForeignKey) (h : (w.headD .eof).token.keyword? ≠ some .on) :
    Yields ctx (parseRule fk) w none w :=
  (Yields.acceptWord?_none _ (mt Denotes.hasKeyword_iff.mp h)).bind (.pure none)

/-- Rules for different events are read as they are written. -/
theorem chain_rules (written : List WrittenRule) (fk : ForeignKey)
    (hnew : ((fk.rules ++ written.map WrittenRule.rule).map ReferentialRule.event).Nodup) :
    Chain ctx parseRule fk (written.flatMap WrittenRule.tokens ++ w)
      { fk with rules := fk.rules ++ written.map WrittenRule.rule } w := by
  induction written generalizing fk with
  | nil => simpa using Chain.nil
  | cons r written ih =>
      have hr : r.event ∉ fk.rules.map ReferentialRule.event := by
        rw [List.map_append, List.nodup_append] at hnew
        exact fun hmem => hnew.2.2 _ hmem _ List.mem_cons_self rfl
      rw [List.flatMap_cons, List.append_assoc]
      refine .append (List.cons_ne_nil _ _) (parseRule_new r hr) ?_
      have hrest := ih { fk with rules := fk.rules ++ [r.rule] } (by simpa using hnew)
      simpa using hrest

/-- Rules for different events are read one behind the other, and each is added at the end. -/
theorem chain_written {fk : ForeignKey} (hnone : fk.rules = []) {written : List WrittenRule}
    (hdistinct : (written.map WrittenRule.event).Nodup) :
    Chain ctx parseRule fk (written.flatMap WrittenRule.tokens ++ w)
      { fk with rules := written.map WrittenRule.rule } w := by
  have hnew : ((fk.rules ++ written.map WrittenRule.rule).map ReferentialRule.event).Nodup := by
    rw [hnone, List.nil_append, map_event]
    exact hdistinct
  have hchain : Chain ctx parseRule fk (written.flatMap WrittenRule.tokens ++ w)
      { fk with rules := fk.rules ++ written.map WrittenRule.rule } w := chain_rules written fk hnew
  rwa [hnone, List.nil_append] at hchain

/-- What a foreign key starts with, up to its rules. -/
def parseHead (name : Option Ident) : Parser ForeignKey := do
  let _ ← expectKeyword .key
  let columns ← Ident.parseList
  let _ ← expectKeyword .references
  let referredTable ← ObjectName.parse
  let referredColumns ← if (← peek).token = .lparen then Ident.parseList else pure []
  return { name, columns, referredTable, referredColumns }

/-- A key is its head, its rules and its states. -/
theorem parse_eq (name : Option Ident) : parse name = (do
    let fk ← iterate parseRule (← parseHead name)
    return { fk with states := ← many ConstraintState.parse }) := by
  simp only [parse, parseHead, bind_assoc]
  refine bind_congr fun _ => bind_congr fun columns => bind_congr fun _ =>
    bind_congr fun referredTable => bind_congr fun t => ?_
  split
  · simp only [bind_assoc, pure_bind]
  · simp only [pure_bind]

/-! ### Heads -/

/-- Names with this sign in front of each. -/
inductive Led (sign : Token) : List Located → List Ident → Prop
  | nil : Led sign [] []
  | cons {s t : Located} {part : Ident} {found : List Located} {parts : List Ident}
      (hs : s.token = sign) (ht : Ident.ofToken t = some part) (more : Led sign found parts) :
      Led sign (s :: t :: found) (part :: parts)

/-- Names with this sign between two of them. -/
inductive Separated (sign : Token) : List Located → List Ident → Prop
  | mk {t : Located} {part : Ident} {found : List Located} {parts : List Ident}
      (ht : Ident.ofToken t = some part) (more : Led sign found parts) :
      Separated sign (t :: found) (part :: parts)

/-- Names in parentheses. -/
inductive Enclosed : List Located → List Ident → Prop
  | mk {opening closing : Located} {found : List Located} {names : List Ident}
      (hopening : opening.token = .lparen) (h : Separated .comma found names)
      (hclosing : closing.token = .rparen) : Enclosed (opening :: (found ++ [closing])) names

/-- What a foreign key starts with as it may be written, and the tokens behind it.  Where no
    columns are referred to, these go on neither with the name of the table nor with columns. -/
inductive Head (columns : List Ident) (table : ObjectName) :
    List Ident → List Located → List Located → Prop
  | bare {key references : Located} {found found' w : List Located}
      (hkey : key.token.keyword? = some .key) (hcolumns : Enclosed found columns)
      (hreferences : references.token.keyword? = some .references)
      (htable : Separated .period found' table.parts)
      (hnext : ∀ sign ∈ [Token.period, .lparen], (w.headD .eof).token ≠ sign) :
      Head columns table [] (key :: (found ++ references :: (found' ++ w))) w
  | referring {key references : Located} {found found' found'' w : List Located}
      {referred : List Ident} (hkey : key.token.keyword? = some .key)
      (hcolumns : Enclosed found columns)
      (hreferences : references.token.keyword? = some .references)
      (htable : Separated .period found' table.parts) (hreferred : Enclosed found'' referred) :
      Head columns table referred
        (key :: (found ++ references :: (found' ++ (found'' ++ w)))) w

/-- A token that names something is read as that name. -/
theorem parseIdent_yields {t : Located} {part : Ident} (ht : Ident.ofToken t = some part) :
    Yields ctx (Ident.parse false) (t :: w) part w := by
  rw [Ident.parse_eq]
  refine Yields.next.bind fun c hc => ⟨c, ?_, hc⟩
  have hstart : Ident.hyphenStart false ctx.toSettings t = none := by
    unfold Ident.hyphenStart
    cases t.token <;> rfl
  rw [bind_run (read_ok.mpr ⟨rfl, rfl⟩), hstart, ht]
  rfl

/-- Names with a sign in front of each are read as long as the sign is there. -/
theorem led_yields {sign : Token} {mark : Parser Bool} {found : List Located}
    {parts : List Ident} (h : Led sign found parts)
    (hmark : ∀ s w, s.token = sign → Yields ctx mark (s :: w) true w)
    (hend : Yields ctx mark w false w) :
    Yields ctx (many (further mark (Ident.parse false))) (found ++ w) parts w := by
  -- the loop gathers in reverse, in front of what was gathered before
  have hchain : ∀ items, Chain ctx (gather (further mark (Ident.parse false))) items (found ++ w)
      (parts.reverse ++ items) w := by
    induction h with
    | nil => exact fun items => .nil
    | @cons s t part found parts hs ht _ ih =>
        intro items
        have hitem : Yields ctx (further mark (Ident.parse false)) ([s, t] ++ (found ++ w))
            (some part) (found ++ w) :=
          .taken (hmark s _ hs) ((parseIdent_yields ht).map some)
        rw [List.reverse_cons, List.append_assoc]
        show Chain ctx _ items ([s, t] ++ (found ++ w)) _ w
        exact .append (List.cons_ne_nil s [t]) (hitem.map _) (ih (part :: items))
  refine .many ?_ (.passed hend (.pure none))
  simpa using hchain []

/-- Names between parentheses with commas between them are read as a list. -/
theorem enclosed_yields {found : List Located} {names : List Ident} (h : Enclosed found names) :
    Yields ctx Ident.parseList (found ++ w) names w := by
  obtain ⟨hopening, ⟨ht, hmore⟩, hclosing⟩ := h
  rename_i closing t part found parts
  have hseparator : ∀ s w, s.token = .comma → Yields ctx (acceptSeparator false) (s :: w) true w :=
    fun s w hs => .taken (.accept hs) (Yields.peek.bind (.pure _))
  have hend : Yields ctx (acceptSeparator false) (closing :: w) false (closing :: w) :=
    .passed (.accept_none (by simp [hclosing])) (.pure _)
  have hnames : Yields ctx (commaSeparatedWith false (Ident.parse false))
      (t :: (found ++ closing :: w)) (part :: parts) (closing :: w) :=
    (parseIdent_yields ht).bind ((led_yields hmore hseparator hend).bind (.pure _))
  have hinner : Yields ctx (do
      let names ← commaSeparatedWith false (Ident.parse false)
      let _ ← expect .rparen
      return names) (t :: (found ++ closing :: w)) (part :: parts) w :=
    hnames.bind ((Yields.expect hclosing).bind (.pure _))
  rw [List.cons_append, List.append_assoc]
  exact (Yields.expect hopening).bind hinner

/-- Names with periods between them are read as the name of a table. -/
theorem table_yields {found : List Located} {table : ObjectName}
    (h : Separated .period found table.parts) (hnext : (w.headD .eof).token ≠ .period) :
    Yields ctx ObjectName.parse (found ++ w) table w := by
  obtain ⟨parts⟩ := table
  cases h with
  | mk ht hmore =>
      refine (parseIdent_yields ht).bind (Yields.bind ?_ (.pure _))
      exact led_yields hmore (fun s w hs => Yields.accept hs) (.accept_none hnext)

/-- A head is read as it is written. -/
theorem head_yields (name : Option Ident) {columns referred : List Ident} {table : ObjectName}
    {w' : List Located} (h : Head columns table referred w w') :
    Yields ctx (parseHead name) w
      { name, columns, referredTable := table, referredColumns := referred } w' := by
  cases h with
  | bare hkey hcolumns hreferences htable hnext =>
      refine (Yields.expectKeyword hkey).bind ((enclosed_yields hcolumns).bind ?_)
      refine (Yields.expectKeyword hreferences).bind ((table_yields htable ?_).bind ?_)
      · exact hnext .period (by simp)
      · refine Yields.peek.bind ?_
        rw [if_neg (hnext .lparen (by simp))]
        exact .pure _
  | @referring _ _ _ _ found'' _ _ hkey hcolumns hreferences htable hreferred =>
      -- columns that are referred to start with a parenthesis, which is how they are noticed
      have hparen : ((found'' ++ w').headD .eof).token = .lparen := by
        obtain ⟨hopening, -, -⟩ := hreferred
        exact hopening
      refine (Yields.expectKeyword hkey).bind ((enclosed_yields hcolumns).bind ?_)
      refine (Yields.expectKeyword hreferences).bind ((table_yields htable ?_).bind ?_)
      · rw [hparen]
        simp
      · refine Yields.peek.bind ?_
        rw [if_pos hparen]
        exact (enclosed_yields hreferred).bind (.pure _)

/-! ### Keys -/

section

variable (name : Option Ident) {columns referred : List Ident} {table : ObjectName}

/-- Rules for different events are kept as they are written, and what follows them is left to
    the states. -/
theorem parse_distinct {written : List WrittenRule}
    (hhead : Head columns table referred w (written.flatMap WrittenRule.tokens ++ rest))
    (hrest : (rest.headD .eof).token.keyword? ≠ some .on)
    (hdistinct : (written.map WrittenRule.event).Nodup) {c : Cursor} (hc : c.ahead = w) :
    ∃ (c1 : Cursor) (states : List ConstraintState) (c' : Cursor), c1.ahead = rest ∧
      many ConstraintState.parse ctx c1 = .ok states c' ∧
      parse name ctx c = .ok
        { name, columns, referredTable := table, referredColumns := referred,
          rules := written.map WrittenRule.rule, states } c' := by
  have hrules : Yields ctx (parseHead name >>= iterate parseRule) w _ rest :=
    (head_yields name hhead).bind (.iterate (chain_written rfl hdistinct) (parseRule_none _ hrest))
  obtain ⟨c1, hrun, hc1⟩ := hrules c hc
  obtain ⟨states, c', hstates⟩ := ConstraintState.parse_total.many ctx c1
  refine ⟨c1, states, c', hc1, hstates, ?_⟩
  rw [parse_eq, ← bind_assoc, bind_run hrun, bind_run hstates]
  rfl

/-- The first rule for an event that has one is where reading ends. -/
theorem parse_repeated {before after : List WrittenRule} {r : WrittenRule}
    (hhead : Head columns table referred w
      ((before ++ r :: after).flatMap WrittenRule.tokens ++ rest))
    (hdistinct : (before.map WrittenRule.event).Nodup)
    (hrepeat : r.event ∈ before.map WrittenRule.event) :
    Breaks ctx (parse name) w (.repeatedRule r.event r.on.location) := by
  rw [List.flatMap_append, List.flatMap_cons, List.append_assoc, List.append_assoc] at hhead
  rw [parse_eq]
  refine .behind (head_yields name hhead) (.bind _ (.iterate (chain_written rfl hdistinct) ?_))
  refine parseRule_repeated r ?_
  show r.event ∈ (before.map WrittenRule.rule).map ReferentialRule.event
  rwa [map_event]

end

end ForeignKey

end SchemaSql
