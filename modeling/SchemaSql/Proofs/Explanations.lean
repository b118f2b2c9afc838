import SchemaSql.Proofs.Climbing.Layout
import SchemaSql.Proofs.Denotation.Names
import SchemaSql.Proofs.Locality.Statements
import SchemaSql.Proofs.WellFormed

/-! # Explanations — what their settings and targets are read from

    An explanation is settings and a target behind one word.  Settings are read one after the
    other, and each may go on with a value or with a second word; so a setting is read back
    from its words only where what follows cannot be taken for one of these.

    * `ExplainOption.Setting` is what the reader of settings denotes;
    * `ExplainOption.setting_tokens` — a valid setting is read from its words in front of a
      keyword that cannot belong to it (`Follows`), and `ExplainOption.parse_valid` — no other
      setting is ever read;
    * `Explain.foldl_addOption` — settings of different kinds are gathered as they stand, and
      so `Explain.parse_tokens` — they are read in front of any target that can be read there;
    * `Explain.parse_table` — the name that an explanation was read with starts neither a
      setting nor a query. -/

namespace SchemaSql

open Cursor SchemaSql.Parser Reading

variable {ctx : Context}

/-! ## Settings -/

namespace ExplainOption

/-- The value of a setting that can be on or off. -/
def Flag : Reading (Option String) :=
  oneOf [.true, .false, .on] fun
    | some keyword => fun T v K => v = some keyword.name ∧ K = T
    | none => Reading.test (fun t => spelled "OFF" { token := t } = true)
        (fun T v K => v = some "OFF" ∧ K = T) fun T v K => v = none ∧ K = T

/-- The keywords that a setting starts with. -/
def starts : List Keyword := [.analyze, .verbose, .costs, .buffers, .format, .plan]

/-- What stands behind the keyword that a setting starts with. -/
def Trailer : Option Keyword → Reading (Option ExplainOption)
  | some .analyze => Flag.seq fun v T o K => o = some ⟨.analyze, v⟩ ∧ K = T
  | some .verbose => Flag.seq fun v T o K => o = some ⟨.verbose, v⟩ ∧ K = T
  | some .costs => Flag.seq fun v T o K => o = some ⟨.costs, v⟩ ∧ K = T
  | some .buffers => Flag.seq fun v T o K => o = some ⟨.buffers, v⟩ ∧ K = T
  | some .format => fun T o K => ∃ w, T = .word w :: K ∧ o = some ⟨.format, some w.value⟩
  | some _ => Reading.test (·.keyword? = some .for)
      (fun T o K => o = some ⟨.planFor, none⟩ ∧ K = T) fun T o K => o = some ⟨.plan, none⟩ ∧ K = T
  | none => fun T o K => o = none ∧ K = T

/-- A setting, or nothing where none starts. -/
def Setting : Reading (Option ExplainOption) := oneOf starts Trailer

/-- A flag is one of four words, and may be missing. -/
theorem parseFlag_denotes : Denotes ctx parseFlag Flag := by
  refine .oneOf _ fun keyword => ?_
  cases keyword with
  | some keyword => exact .pure _
  | none => exact .spelling_test "OFF" (.pure _) (.pure _)

theorem parseFormat_denotes :
    Denotes ctx parseFormat fun T v K => ∃ w, T = .word w :: K ∧ v = w.value := by
  refine (Denotes.next (F := fun t T v K => ∃ w, t = .word w ∧ v = w.value ∧ K = T)
    (fun l _ => ?_) (by exact Fails.expected _ _)).congr fun T v K _ => ?_
  · cases l.token with
    | word w => exact (Denotes.pure w.value).congr fun T v K _ => by simp
    | _ => exact (Denotes.fails (Fails.expected _ _)).congr fun T v K _ => by simp
  · constructor
    · rintro ⟨_, _, rfl, w, rfl, rfl, rfl⟩
      exact ⟨w, rfl, rfl⟩
    · rintro ⟨w, rfl, rfl⟩
      exact ⟨_, K, rfl, w, rfl, rfl, rfl⟩

/-- A setting starts with its word, and its flag or its format stands behind that. -/
theorem parse_denotes : Denotes ctx parse Setting := by
  refine .oneOf _ fun keyword => ?_
  split
  · exact parseFlag_denotes.bind fun _ => .pure _
  · exact parseFlag_denotes.bind fun _ => .pure _
  · exact parseFlag_denotes.bind fun _ => .pure _
  · exact parseFlag_denotes.bind fun _ => .pure _
  · refine (parseFormat_denotes.bind fun _ => .pure _).congr fun T o K _ => ?_
    simp [Trailer, Reading.seq]
  · rename_i keyword hanalyze hverbose hcosts hbuffers hformat
    rw [Trailer]
    · refine (Denotes.keyword_test .for (.pure _) (.pure _)).of_run fun c => congrFun ?_ c
      refine congrArg (fun f => (acceptKeyword .for >>= f) ctx) (funext fun b => ?_)
      cases b <;> rfl
    all_goals assumption
  · exact .pure none

/-! ### Valid settings -/

/-- The values of settings that can be on or off. -/
def flags : List String := ["TRUE", "FALSE", "ON", "OFF"]

/-- A setting has a value that its kind goes with. -/
def Valid (o : ExplainOption) : Prop :=
  match o.kind with
  | .analyze | .verbose | .costs | .buffers => ∀ v ∈ o.value, v ∈ flags
  | .format => o.value ≠ none
  | .plan | .planFor => o.value = none

/-- Whatever flag is read, it is one of those that there are. -/
theorem parseFlag_valid : Ensures parseFlag fun o => ∀ v ∈ o, v ∈ flags := by
  have hkeyword : Ensures (acceptOneOf [.true, .false, .on])
      fun o => ∀ k ∈ o, k ∈ [Keyword.true, .false, .on] := by
    intro ctx c o c' hrun k hk
    rcases (acceptOneOf_looks _ ctx c o c').mp hrun with ⟨htake, -⟩ | ⟨-, hnone, -⟩
    · obtain ⟨k', hjoin, rfl⟩ := Option.map_eq_some_iff.mp htake
      obtain rfl := Option.some.inj hk
      exact (Denotes.keywordOf_join.mp hjoin).2
    · obtain rfl := Option.some.inj hnone
      exact nomatch hk
  refine .bind hkeyword fun o ho => ?_
  cases o with
  | some k =>
      refine .pure ?_
      rintro _ ⟨⟩
      -- a value is stored by the name of its keyword
      have hname : ∀ k ∈ [Keyword.true, .false, .on], k.name ∈ flags := by decide
      exact hname k (ho k rfl)
  | none => exact .test (.pure (by simp [flags])) (.pure (by simp))

/-- Whatever setting is read, its value goes with its kind. -/
theorem parse_valid : Ensures parse fun o => ∀ setting ∈ o, setting.Valid := by
  have hflag : ∀ kind, (kind = .analyze ∨ kind = .verbose ∨ kind = .costs ∨ kind = .buffers) →
      Ensures (do return some ⟨kind, ← parseFlag⟩ : Parser (Option ExplainOption))
        fun o => ∀ setting ∈ o, setting.Valid := by
    rintro kind hkind
    refine .bind parseFlag_valid fun v hv => .pure ?_
    rintro _ ⟨⟩
    rcases hkind with rfl | rfl | rfl | rfl <;> exact hv
  refine .after fun keyword => ?_
  split
  · exact hflag _ (by simp)
  · exact hflag _ (by simp)
  · exact hflag _ (by simp)
  · exact hflag _ (by simp)
  · exact .after fun _ => .pure (by simp [Valid])
  · exact .after fun b => .pure (by cases b <;> simp [Valid])
  · exact .pure (by simp)

/-- The keywords that stand for a kind of setting. -/
def kindKeywords : ExplainOptionKind → List Keyword
  | .analyze => [.analyze]
  | .verbose => [.verbose]
  | .costs => [.costs]
  | .buffers => [.buffers]
  | .format => [.format]
  | .plan => [.plan]
  | .planFor => [.plan, .for]

/-- The tokens of a setting. -/
def tokens (o : ExplainOption) : List Token :=
  (kindKeywords o.kind).map .ofKeyword ++ o.value.toList.map .bare

/-- These tokens start with a keyword that is no part of the setting in front of them. -/
def Follows (T : List Token) : Prop :=
  ∃ k K, T = .ofKeyword k :: K ∧ k ∉ [Keyword.true, .false, .on, .for]

/-- What stands behind a setting is not taken for its flag. -/
theorem flag_none {T : List Token} (h : Follows T) : Flag T none T := by
  obtain ⟨k, K, rfl, hk⟩ := h
  have hoff : spelled "OFF" { token := .ofKeyword k } = false := by
    -- by lengths first, since it takes long to evaluate the lower case of every keyword
    have hall : ∀ k ∈ Keyword.ordered, k.name.length = "OFF".length →
        k.name.toLower ≠ "OFF".toLower := by
      decide +kernel
    have hlength : ∀ s : String, s.toLower.length = s.length := fun _ => String.length_map
    have hname : k.name.toLower ≠ "OFF".toLower := fun h =>
      hall k k.mem_ordered (by rw [← hlength, h, hlength]) h
    show (k.name.toLower == "OFF".toLower) = false
    exact beq_false_of_ne hname
  refine .inr ⟨?_, .inr ⟨?_, rfl, rfl⟩⟩
  · rintro t ⟨⟩ k' hk' hkey
    obtain rfl : k = k' := Option.some.inj ((Expr.keyword?_ofKeyword k).symm.trans hkey)
    revert hk' hk
    simp
    tauto
  · rintro t ⟨⟩
    simp [hoff]

/-- A flag is read as the word that it is printed as. -/
theorem flag_some {v : String} (h : v ∈ flags) {T : List Token} :
    Flag (.bare v :: T) (some v) T := by
  simp only [flags, List.mem_cons, List.not_mem_nil, or_false] at h
  rcases h with rfl | rfl | rfl | rfl
  · exact .inl ⟨_, T, .true, rfl, Expr.keyword?_ofKeyword .true, by simp, rfl, rfl⟩
  · exact .inl ⟨_, T, .false, rfl, Expr.keyword?_ofKeyword .false, by simp, rfl, rfl⟩
  · exact .inl ⟨_, T, .on, rfl, Expr.keyword?_ofKeyword .on, by simp, rfl, rfl⟩
  · refine .inr ⟨?_, .inl ⟨_, T, rfl, by decide +kernel, rfl, rfl⟩⟩
    rintro t ⟨⟩
    decide +kernel

/-- A valid setting is read back from its tokens. -/
theorem setting_tokens {o : ExplainOption} (h : o.Valid) {T : List Token} (hT : Follows T) :
    Setting (o.tokens ++ T) (some o) T := by
  -- a flag behind its word is written only where it is stored
  have hflag : ∀ v : Option String, (∀ s ∈ v, s ∈ flags) → Flag (v.toList.map .bare ++ T) v T := by
    rintro (_ | v) hv
    · exact flag_none hT
    · exact flag_some (hv v rfl)
  -- every option is a word that starts options and what belongs to that word
  have hstart : ∀ k ∈ starts, ∀ {M o}, Trailer (some k) M (some o) T →
      Setting (.ofKeyword k :: M) (some o) T := fun k hk M o htrailer =>
    .inl ⟨_, M, k, rfl, Expr.keyword?_ofKeyword k, hk, htrailer⟩
  obtain ⟨kind, value⟩ := o
  cases kind with
  | analyze => exact hstart .analyze (by simp [starts]) ⟨_, T, hflag value h, rfl, rfl⟩
  | verbose => exact hstart .verbose (by simp [starts]) ⟨_, T, hflag value h, rfl, rfl⟩
  | costs => exact hstart .costs (by simp [starts]) ⟨_, T, hflag value h, rfl, rfl⟩
  | buffers => exact hstart .buffers (by simp [starts]) ⟨_, T, hflag value h, rfl, rfl⟩
  | format =>
      obtain ⟨v, rfl⟩ := Option.ne_none_iff_exists'.mp h
      exact hstart .format (by simp [starts]) ⟨_, rfl, rfl⟩
  | plan =>
      obtain rfl : value = none := h
      obtain ⟨k, K, rfl, hk⟩ := hT
      -- `PLAN` without `FOR`: what follows the options does not start with it
      refine hstart .plan (by simp [starts]) (.inr ⟨?_, rfl, rfl⟩)
      rintro t ⟨⟩ hfor
      obtain rfl := Option.some.inj ((Expr.keyword?_ofKeyword k).symm.trans hfor)
      simp at hk
  | planFor =>
      obtain rfl : value = none := h
      exact hstart .plan (by simp [starts])
        (.inl ⟨_, T, rfl, Expr.keyword?_ofKeyword .for, rfl, rfl⟩)

/-- Where nothing is read, no setting starts. -/
theorem setting_none {T K : List Token} : Setting T none K ↔
    K = T ∧ ∀ t ∈ T.head?, ∀ k ∈ starts, t.keyword? ≠ some k := by
  have htrailer : ∀ k M, ¬ Trailer (some k) M none K := by
    intro k M h
    generalize hD : Trailer (some k) = D at h
    unfold Trailer at hD
    split at hD <;> subst hD <;> simp_all [Reading.seq, Reading.test, Reading.behind]
  constructor
  · rintro (⟨t, T', k, rfl, -, -, h⟩ | ⟨hnone, -, rfl⟩)
    · exact absurd h (htrailer k T')
    · exact ⟨rfl, hnone⟩
  · rintro ⟨rfl, hnone⟩
    exact .inr ⟨hnone, rfl, rfl⟩

/-- The tokens of a setting start with a keyword that no setting goes on with. -/
theorem follows_tokens (o : ExplainOption) (T : List Token) : Follows (o.tokens ++ T) := by
  obtain ⟨kind, value⟩ := o
  cases kind <;> exact ⟨_, _, rfl, by decide⟩

/-- Valid settings are read back, up to a target that neither starts with a setting nor goes
    on with one. -/
theorem many_tokens {options : List ExplainOption} (h : ∀ o ∈ options, o.Valid) {T : List Token}
    (hnone : Setting T none T) (hT : options ≠ [] → Follows T) :
    Many Setting (options.flatMap tokens ++ T) options T := by
  induction options with
  | nil => exact .nil hnone
  | cons o options ih =>
      have hrest := ih (fun o' ho' => h o' (List.mem_cons_of_mem o ho')) fun _ => hT (by simp)
      rw [List.flatMap_cons, List.append_assoc]
      refine .cons (setting_tokens (h o (by simp)) ?_) hrest
      cases options with
      | nil => exact hT (by simp)
      | cons o' options =>
          rw [List.flatMap_cons, List.append_assoc]
          exact follows_tokens o' _

end ExplainOption

namespace Explain

/-- Settings of different kinds are gathered as they stand. -/
theorem foldl_addOption (options : List ExplainOption) {e : Explain}
    (h : ((e.options ++ options).map ExplainOption.kind).Nodup) :
    options.foldl addOption e = { e with options := e.options ++ options } := by
  induction options generalizing e with
  | nil => simp
  | cons o options ih =>
      have hnew : o.kind ∉ e.options.map ExplainOption.kind := by
        rw [List.map_append, List.map_cons, List.nodup_append] at h
        exact fun hmem => h.2.2 _ hmem _ List.mem_cons_self rfl
      have hadd : e.addOption o = { e with options := e.options ++ [o] } := by
        rw [addOption, Keyed.upsert_new hnew]
      rw [List.foldl_cons, hadd, ih (by simpa using h)]
      simp

/-- The options of an explanation are among those that were read. -/
theorem parse_valid (keyword : ExplainKeyword) :
    Ensures (parse keyword) fun e => e.keyword = keyword ∧ ∀ o ∈ e.options, o.Valid := by
  have hfold : ∀ (options : List ExplainOption) (e : Explain), (∀ o ∈ options, o.Valid) →
      (e.keyword = keyword ∧ ∀ o ∈ e.options, o.Valid) →
      (options.foldl addOption e).keyword = keyword ∧
        ∀ o ∈ (options.foldl addOption e).options, o.Valid := by
    intro options
    induction options with
    | nil => exact fun _ _ h => h
    | cons o options ih =>
        intro e hoptions he
        obtain ⟨ho, hrest⟩ := List.forall_mem_cons.mp hoptions
        refine ih _ hrest ⟨he.1, fun o' ho' => ?_⟩
        rcases Keyed.mem_of_mem_upsert ho' with rfl | hmem
        · exact ho
        · exact he.2 o' hmem
  exact .bind (.many ExplainOption.parse_valid) fun options hoptions => .after fun target =>
    .pure (hfold options _ hoptions ⟨rfl, by simp⟩)

/-- What a target is read as depends on the token it starts with. -/
theorem parseTarget_run (ctx : Context) (c : Cursor) :
    parseTarget ctx c =
      if c.peek.token.keyword? = some .select ∨ c.peek.token.keyword? = some .from
      then (ExplainTarget.query <$> Query.parse) ctx c
      else (ExplainTarget.table <$> ObjectName.parse) ctx c := by
  have hpeek : ∀ k, peekKeyword k ctx c = .ok (hasKeyword (some k) c.peek) c := by
    intro k
    rw [peekKeyword, peekWord, bind_run (peek_ok.mpr ⟨rfl, rfl⟩)]
    cases hpeek : c.peek.token with
    | word w => simp only [hasKeyword, hpeek, beq_eq_decide]; rfl
    | _ => simp only [hasKeyword, hpeek]; rfl
  rw [parseTarget, bind_run (hpeek .select), bind_run (hpeek .from)]
  simp only [Bool.or_eq_true, Denotes.hasKeyword_iff]
  split <;> rfl

/-- Settings of different kinds and a target behind them are read as they stand. -/
theorem parse_tokens (keyword : ExplainKeyword) {options : List ExplainOption}
    {target : ExplainTarget} (hvalid : ∀ o ∈ options, o.Valid)
    (hkinds : (options.map ExplainOption.kind).Nodup) {T : List Token}
    (hnone : ExplainOption.Setting T none T)
    (hT : options ≠ [] → ExplainOption.Follows T) {c : Cursor}
    (hc : c.Holds (options.flatMap ExplainOption.tokens ++ T)) {Q : Cursor → Prop}
    (htarget : ∀ c1 used, c1.Holds T → c.rest = used ++ c1.rest →
      ∃ c', parseTarget ctx c1 = .ok target c' ∧ Q c') :
    ∃ c', parse keyword ctx c = .ok { keyword, options, target } c' ∧ Q c' := by
  have hoffers := ExplainOption.parse_offers (R := Follow StatementEnd)
  obtain ⟨c1, hoptions, hT⟩ := (ExplainOption.parse_denotes.many hoffers).complete hc
    (ExplainOption.many_tokens hvalid hnone hT)
  obtain ⟨-, used, hused, -⟩ := Local.many hoffers ctx c options c1 hc.overrun hoptions
  obtain ⟨c', hrun, hQ⟩ := htarget c1 used hT hused
  refine ⟨c', bind_ok.mpr ⟨options, c1, hoptions, bind_ok.mpr ⟨target, c', hrun, ?_⟩⟩, hQ⟩
  rw [foldl_addOption options (by simpa using hkinds)]
  exact pure_ok.mpr ⟨rfl, rfl⟩

/-- Behind settings that were read, nothing starts a further one. -/
theorem many_settings_ends {T K : List Token} {options : List ExplainOption}
    (h : Many ExplainOption.Setting T options K) : ExplainOption.Setting K none K := by
  induction h with
  | nil h =>
      obtain ⟨rfl, hhead⟩ := ExplainOption.setting_none.mp h
      exact ExplainOption.setting_none.mpr ⟨rfl, hhead⟩
  | cons _ _ ih => exact ih

/-- Setting options leaves the target alone. -/
theorem target_foldl (options : List ExplainOption) (e : Explain) :
    (options.foldl addOption e).target = e.target := by
  induction options generalizing e with
  | nil => rfl
  | cons o options ih => exact ih (e.addOption o)

/-- The tokens of a name that an explanation was read with: they start neither a setting nor a
    query. -/
theorem parse_table {keyword : ExplainKeyword} {c c' : Cursor} {e : Explain} {T : List Token}
    (hc : c.Holds T) (h : parse keyword ctx c = .ok e c') {name : ObjectName}
    (htarget : e.target = .table name) : ∃ t ts, (∀ t' ∈ t :: ts, t' ∈ T) ∧
      List.Forall₂ Token.Names (t :: ts) name.parts ∧
      ∀ k ∈ .select :: .from :: ExplainOption.starts, t.keyword? ≠ some k := by
  have hoffers := ExplainOption.parse_offers (R := Follow StatementEnd)
  obtain ⟨options, c1, hoptions, h⟩ := bind_ok.mp h
  obtain ⟨target, c2, hrun, h⟩ := bind_ok.mp h
  obtain ⟨rfl, rfl⟩ := pure_ok.mp h
  obtain rfl : target = .table name := (target_foldl options _).symm.trans htarget
  obtain ⟨M, hM, hmany⟩ := (ExplainOption.parse_denotes.many hoffers).sound hc hoptions
  obtain ⟨-, used, hused, -⟩ := Local.many hoffers ctx c options c1 hc.overrun hoptions
  rw [parseTarget_run] at hrun
  split at hrun
  · obtain ⟨_, -, hcontra⟩ := map_ok.mp hrun
    exact nomatch hcontra
  · rename_i hquery
    obtain ⟨_, hname, ⟨⟩⟩ := map_ok.mp hrun
    obtain ⟨K, -, t, ts, rfl, hparts, -⟩ := ObjectName.parse_denotes.sound hM hname
    refine ⟨t, ts, fun t' ht' => ?_, hparts, fun k hk => ?_⟩
    · have hmem : t' ∈ t :: (dotted ts ++ K) := by
        rcases List.mem_cons.mp ht' with rfl | ht'
        · exact List.mem_cons_self
        · exact List.mem_cons_of_mem _ (List.mem_append_left _ (mem_dotted ht'))
      rw [hc.append hM hused]
      exact List.mem_append_right _ hmem
    -- a table is read where neither keyword of a query is in front
    · rw [hM.peek, not_or] at hquery
      rcases List.mem_cons.mp hk with rfl | hk
      · exact hquery.1
      rcases List.mem_cons.mp hk with rfl | hk
      · exact hquery.2
      · exact (ExplainOption.setting_none.mp (many_settings_ends hmany)).2 t rfl k hk

end Explain

end SchemaSql
