import SchemaSql.Proofs.Escaping
import SchemaSql.Proofs.Spelling

/-! # String literals — which values survive printing

    A literal is printed between two quotes, with those quotes in it doubled that are not
    doubled yet and do not stand behind a backslash.  Whether that is how the lexer reads the
    value depends on the dialect and on whether literals are decoded.  The route:

    * `StringUnit.read_written` and `StringUnit.read_eq` — reading a literal is finding the
      units it is written with;
    * `lex_enclose` — a printed literal is read back exactly when its escaped text is written
      with units that have its value;
    * `exists_decoded` — where literals are decoded, the units have to double every quote, so
      escaping must have found each of them alone, and a backslash is only itself where it
      escapes nothing;
    * `escapeFrom_written` — where literals are kept as written, escaping must change nothing,
      which it does exactly if no quote stands behind backslashes that do not escape it. -/

namespace SchemaSql

open Text

/-! ## Units -/

namespace StringUnit

/-- The lexer reads such a unit. -/
def Legal (backslash : Bool) (quote : Char) : StringUnit → Prop
  | .plain c => c ≠ quote ∧ (backslash = true → c ≠ '\\')
  | .doubledQuote => True
  | .escaped _ => backslash = true

variable {backslash : Bool} {quote : Char} {units : List StringUnit}

/-- What is written with units is read as them. -/
theorem read_written (hq : quote ≠ '\\') (h : ∀ x ∈ units, x.Legal backslash quote)
    {rest : List Char} (hrest : rest.head? ≠ some quote) :
    read backslash quote (units.flatMap (written quote) ++ quote :: rest) = some units := by
  induction units with
  | nil =>
      cases rest with
      | nil => simp [read]
      | cons r rest =>
          have hr : r ≠ quote := by simpa using hrest
          simp [read, hr]
  | cons x units ih =>
      have hunits := ih fun y hy => h y (List.mem_cons_of_mem x hy)
      -- the text behind a unit is never empty, so the reader sees one character further
      obtain ⟨d, tail, htail⟩ :
          ∃ d tail, units.flatMap (written quote) ++ quote :: rest = d :: tail := by
        cases units.flatMap (written quote) with
        | nil => exact ⟨_, _, rfl⟩
        | cons d tail => exact ⟨_, _, rfl⟩
      have hx := h x (by simp)
      rw [htail] at hunits
      rw [List.flatMap_cons, List.append_assoc, htail]
      cases x with
      | plain c =>
          have hb : (decide (c = '\\') && backslash) = false := by
            cases backslash with
            | false => simp
            | true => simpa using hx.2 rfl
          simp [written, read, hx.1, hb, hunits]
      | doubledQuote => simp [written, read, hunits]
      | escaped c =>
          obtain rfl : backslash = true := hx
          simp [written, read, hq.symm, hunits]

/-- The text starts with these units, and a single quote stands behind them. -/
structure Opens (backslash : Bool) (quote : Char) (units : List StringUnit) (cs : List Char) :
    Prop where
  legal : ∀ x ∈ units, x.Legal backslash quote
  split : ∃ rest, cs = units.flatMap (written quote) ++ quote :: rest ∧ rest.head? ≠ some quote

/-- One more unit in front of those that were read. -/
theorem Opens.cons {x : StringUnit} {cs : List Char} (hx : x.Legal backslash quote)
    (h : (x :: ·) <$> read backslash quote cs = some units)
    (ih : ∀ {units}, read backslash quote cs = some units → Opens backslash quote units cs) :
    Opens backslash quote units (x.written quote ++ cs) := by
  obtain ⟨units, hread, rfl⟩ := Option.map_eq_some_iff.mp h
  obtain ⟨hlegal, rest, rfl, hrest⟩ := ih hread
  exact ⟨List.forall_mem_cons.mpr ⟨hx, hlegal⟩, rest, by simp, hrest⟩

/-- What the lexer reads as units is written with them. -/
theorem opens_of_read {cs : List Char} (h : read backslash quote cs = some units) :
    Opens backslash quote units cs := by
  induction cs using read.induct backslash quote generalizing units with
  | case1 => simp [read] at h
  | case2 =>
      obtain rfl : units = [] := by simpa [read] using h.symm
      exact ⟨by simp, [], by simp, by simp⟩
  | case3 c hc => simp [read, hc] at h
  | case4 rest ih =>
      rw [read, if_pos rfl, if_pos rfl] at h
      exact .cons (x := .doubledQuote) trivial h ih
  | case5 d rest hd =>
      obtain rfl : units = [] := by simpa [read, hd] using h.symm
      exact ⟨by simp, d :: rest, by simp, by simpa using hd⟩
  | case6 c d rest hc hb ih =>
      rw [read, if_neg hc, if_pos hb] at h
      obtain ⟨rfl, rfl⟩ : c = '\\' ∧ backslash = true := by simpa using hb
      exact .cons (x := .escaped d) rfl h ih
  | case7 c d rest hc hb ih =>
      rw [read, if_neg hc, if_neg hb] at h
      refine .cons (x := .plain c) ⟨hc, ?_⟩ h ih
      rintro rfl rfl
      simp at hb

/-! ### Units of decoded values -/

/-- Whether a unit is a character behind a backslash. -/
def isEscaped : StringUnit → Bool
  | .escaped _ => true
  | _ => false

/-- An escaped character needs a backslash more than its value has. -/
theorem count_written (hq : quote ≠ '\\') (h : ∀ x ∈ units, x.Legal backslash quote) :
    (units.map (value quote)).count '\\' + units.countP isEscaped
      ≤ (units.flatMap (written quote)).count '\\' := by
  induction units with
  | nil => simp
  | cons x units ih =>
      have hunits := ih fun y hy => h y (List.mem_cons_of_mem x hy)
      rw [List.map_cons, List.flatMap_cons, List.count_cons, List.countP_cons, List.count_append]
      have hx : (if value quote x == '\\' then 1 else 0) + (if isEscaped x then 1 else 0)
          ≤ (written quote x).count '\\' := by
        cases x with
        | plain c => by_cases hc : c = '\\' <;> simp [value, isEscaped, written, hc]
        | doubledQuote => simp [value, isEscaped, written, hq]
        | escaped c =>
            by_cases hc : c = '\\'
            · simp [hc, value, escapeValue, isEscaped, written]
            · have hvalue : value quote (.escaped c) ≠ '\\' := by
                show escapeValue c ≠ '\\'
                unfold escapeValue
                split <;> simp_all
              simp [hvalue, isEscaped, written]
      omega

/-- Units none of which is escaped double the quotes of their values. -/
theorem written_eq_doubled (h : ∀ x ∈ units, x.Legal backslash quote)
    (hplain : ∀ x ∈ units, x.isEscaped = false) :
    units.flatMap (written quote) = doubled quote (units.map (value quote)) := by
  induction units with
  | nil => rfl
  | cons x units ih =>
      rw [List.flatMap_cons, List.map_cons, doubled_cons,
        ih (fun y hy => h y (List.mem_cons_of_mem x hy))
          fun y hy => hplain y (List.mem_cons_of_mem x hy)]
      cases x with
      | plain c => simp [written, value, (h (.plain c) (by simp)).1]
      | doubledQuote => simp [written, value]
      | escaped c => simpa [isEscaped] using hplain (.escaped c) (by simp)

/-- The units that double the quotes of a value. -/
def ofValue (quote : Char) (v : List Char) : List StringUnit :=
  v.map fun c => if c = quote then .doubledQuote else .plain c

/-- The units of a value are legal where it has no backslash, or backslashes mean nothing. -/
theorem legal_ofValue {v : List Char} (h : backslash = true → '\\' ∉ v) :
    ∀ x ∈ ofValue quote v, x.Legal backslash quote := by
  intro x hx
  obtain ⟨c, hc, rfl⟩ := List.mem_map.mp hx
  by_cases hcq : c = quote
  · simp [hcq, Legal]
  · rw [if_neg hcq]
    refine ⟨hcq, fun hb => ?_⟩
    rintro rfl
    exact h hb hc

/-- The units of a value stand for its characters. -/
theorem map_value_ofValue (quote : Char) (v : List Char) :
    (ofValue quote v).map (value quote) = v := by
  rw [ofValue, List.map_map]
  conv => rhs; rw [← List.map_id v]
  refine List.map_congr_left fun c _ => ?_
  by_cases hcq : c = quote <;> simp [hcq, value]

/-- The units of a value are written with every quote doubled. -/
theorem written_ofValue (quote : Char) (v : List Char) :
    (ofValue quote v).flatMap (written quote) = doubled quote v := by
  have hlegal : ∀ x ∈ ofValue quote v, x.Legal false quote := legal_ofValue (by simp)
  rw [written_eq_doubled hlegal ?_, map_value_ofValue]
  intro x hx
  obtain ⟨c, -, rfl⟩ := List.mem_map.mp hx
  by_cases hcq : c = quote <;> simp [hcq, isEscaped]

/-- A value has units that are written as escaping writes it exactly if none of its quotes
    stands behind another one or behind a backslash, and it has no backslash where one
    escapes. -/
theorem exists_decoded (hq : quote ≠ '\\') {v : List Char} :
    (∃ units : List StringUnit, (∀ x ∈ units, x.Legal backslash quote) ∧
      escapeFrom quote '\x00' v = units.flatMap (written quote) ∧
      units.map (value quote) = v) ↔
    ¬ [quote, quote] <:+: v ∧ ¬ ['\\', quote] <:+: v ∧ (backslash = true → '\\' ∉ v) := by
  have hstart : ['\\', quote] <:+: '\x00' :: v ↔ ['\\', quote] <:+: v := by
    simp [pair_infix_cons]
  rw [← and_assoc, ← hstart, ← escapeFrom_eq_doubled]
  constructor
  · rintro ⟨units, hlegal, hescape, hvalue⟩
    -- the escaper writes one backslash for each one of the value, so no unit is an escape
    have hcount := count_written hq hlegal
    rw [← hescape, count_escapeFrom hq, hvalue] at hcount
    have hplain : ∀ x ∈ units, x.isEscaped = false := by
      have hzero : units.countP isEscaped = 0 := by omega
      simpa using List.countP_eq_zero.mp hzero
    refine ⟨by rw [hescape, written_eq_doubled hlegal hplain, hvalue], fun hb hmem => ?_⟩
    rw [← hvalue] at hmem
    obtain ⟨x, hx, hxv⟩ := List.mem_map.mp hmem
    cases x with
    | plain c => exact (hlegal _ hx).2 hb hxv
    | doubledQuote => exact hq hxv
    | escaped c => simpa [isEscaped] using hplain _ hx
  · rintro ⟨hescape, hb⟩
    exact ⟨ofValue quote v, legal_ofValue hb, by rw [hescape, written_ofValue],
      map_value_ofValue quote v⟩

/-! ### Units kept as they are written -/

/-- A text that ends with this many backslashes leaves a quote behind it as it is. -/
def Free (backslash : Bool) (front : List Char) : Prop :=
  trailing front = 0 ∨ (backslash = true ∧ trailing front % 2 = 1)

/-- No quote of the text stands, behind what is in front of it, where it would change. -/
def Guarded (backslash : Bool) (quote : Char) (pre cs : List Char) : Prop :=
  ∀ front rest, cs = front ++ quote :: rest → Free backslash (pre ++ front)

theorem guarded_nil (pre : List Char) : Guarded backslash quote pre [] := by
  simp [Guarded]

/-- A quote in a text is guarded by what stands in front of it, and then the rest is. -/
theorem guarded_cons {pre cs : List Char} {c : Char} : Guarded backslash quote pre (c :: cs) ↔
    (c = quote → Free backslash pre) ∧ Guarded backslash quote (pre ++ [c]) cs := by
  constructor
  · refine fun h => ⟨?_, fun front rest heq => ?_⟩
    · rintro rfl
      simpa using h [] cs rfl
    · simpa using h (c :: front) rest (by simp [heq])
  · rintro ⟨hfree, hrest⟩ (_ | ⟨x, front⟩) rest heq
    · obtain ⟨rfl, -⟩ := List.cons.inj heq
      simpa using hfree rfl
    · obtain ⟨rfl, hsplit⟩ := List.cons.inj heq
      simpa using hrest front rest hsplit

/-- A quote that was taken for the second of a pair leaves its own pair broken: what stands
    behind it grows. -/
theorem lt_length_escapeFrom (hq : quote ≠ '\\') (h : ∀ x ∈ units, x.Legal backslash quote)
    {p : Char} (hp : p ≠ '\\') : (quote :: units.flatMap (written quote)).length <
      (escapeFrom quote p (quote :: units.flatMap (written quote))).length := by
  -- escaping never makes a text shorter, so one doubled quote makes it longer
  have hle := fun c cs => le_length_escapeFrom quote quote (c :: cs)
  induction units generalizing p with
  | nil => simp [escapeFrom, hp]
  | cons x units ih =>
      rw [List.flatMap_cons]
      cases x with
      | plain c =>
          have hc : c ≠ quote := (h (.plain c) (by simp)).1
          have := hle c (units.flatMap (written quote))
          simp only [written, List.singleton_append]
          rw [escapeFrom_double hp (by simpa using hc)]
          simp only [List.length_cons] at this ⊢
          omega
      | doubledQuote =>
          have := ih (fun y hy => h y (List.mem_cons_of_mem _ hy)) hq
          simp only [written, List.cons_append, List.nil_append]
          rw [escapeFrom_pair hp]
          simp only [List.length_cons] at this ⊢
          omega
      | escaped c =>
          have := hle '\\' (c :: units.flatMap (written quote))
          simp only [written, List.cons_append, List.nil_append]
          rw [escapeFrom_double hp (by simpa using hq.symm)]
          simp only [List.length_cons] at this ⊢
          omega

/-- Escaping leaves units as they are written exactly if no quote stands behind backslashes
    that do not escape it.  The text in front of them is `pre`: it ends with an even number of
    backslashes, since the units in front of these take theirs in pairs. -/
theorem escapeFrom_written (hq : quote ≠ '\\') (h : ∀ x ∈ units, x.Legal backslash quote)
    {pre : List Char} (hpre : backslash = true → trailing pre % 2 = 0) :
    escapeFrom quote (pre.getLast?.getD '\x00') (units.flatMap (written quote)) =
      units.flatMap (written quote) ↔
    Guarded backslash quote pre (units.flatMap (written quote)) := by
  induction units generalizing pre with
  | nil => exact iff_of_true rfl (guarded_nil pre)
  | cons x units ih =>
      have hx := h x (by simp)
      have hunits : ∀ y ∈ units, y.Legal backslash quote :=
        fun y hy => h y (List.mem_cons_of_mem x hy)
      rw [List.flatMap_cons]
      cases x with
      | plain c =>
          have hrest := @ih hunits (pre ++ [c]) fun hb => by simp [hx.2 hb]
          rw [List.getLast?_concat, Option.getD_some] at hrest
          simp only [written, List.singleton_append]
          rw [escapeFrom_single (.inl hx.1), List.cons_inj_right, guarded_cons, hrest]
          simp [hx.1]
      | doubledQuote =>
          simp only [written, List.cons_append, List.nil_append]
          by_cases hlast : pre.getLast?.getD '\x00' = '\\'
          · -- the quote is taken for an escaped one, though it is not
            have hpos : trailing pre ≠ 0 := fun hzero => trailing_eq_zero.mp hzero hlast
            refine iff_of_false (fun heq => ?_) fun hguard => ?_
            · rw [escapeFrom_single (.inr hlast), List.cons_inj_right] at heq
              exact absurd (congrArg List.length heq)
                (lt_length_escapeFrom hq hunits hq).ne'
            · rcases (guarded_cons.mp hguard).1 rfl with hzero | ⟨hb, hodd⟩
              · exact hpos hzero
              · have := hpre hb
                omega
          · have hzero : trailing pre = 0 := trailing_eq_zero.mpr hlast
            have hrest := @ih hunits (pre ++ [quote] ++ [quote]) fun _ => by
              rw [trailing_concat, if_neg hq]
            rw [List.getLast?_concat, Option.getD_some] at hrest
            rw [escapeFrom_pair hlast, List.cons_inj_right, List.cons_inj_right, guarded_cons,
              guarded_cons, hrest]
            simp [Free, hzero, hq]
      -- the parity of the backslashes in front is the invariant: an escape adds two, or its own one
      | escaped c =>
          have hb : backslash = true := hx
          have heven := hpre hb
          have hrest := @ih hunits (pre ++ ['\\'] ++ [c]) fun _ => by
            rw [trailing_concat, trailing_concat, if_pos rfl]
            split <;> omega
          rw [List.getLast?_concat, Option.getD_some] at hrest
          simp only [written, List.cons_append, List.nil_append]
          rw [escapeFrom_single (.inl hq.symm), escapeFrom_single (.inr rfl), List.cons_inj_right,
            List.cons_inj_right, guarded_cons, guarded_cons, hrest]
          have hfree : Free backslash (pre ++ ['\\']) := by
            rw [Free, trailing_concat, if_pos rfl]
            exact .inr ⟨hb, by omega⟩
          simp [hq.symm, hfree]

end StringUnit

/-! ## Literals in a text -/

namespace Dialect.OpensString

variable {d : Dialect} {q : Char}

theorem ne_backslash (h : d.OpensString q) : q ≠ '\\' := by
  rcases h with rfl | ⟨rfl, -⟩ <;> decide

/-- A literal is written between its quotes. -/
theorem text_literal (h : d.OpensString q) (v : String) :
    (Token.literal q v).text = enclose q v := by
  rcases h with rfl | ⟨rfl, -⟩ <;> rfl

/-- A literal goes on with its quote and with nothing else. -/
theorem stops_literal (h : d.OpensString q) {v : String} {x : Char} :
    (Token.literal q v).Stops d x ↔ x ≠ q := by
  rcases h with rfl | ⟨rfl, -⟩ <;> rfl

/-- A quote that opens strings makes the lexer read one. -/
theorem scan_eq [d.Regular] (h : d.OpensString q) (u : Bool) (cs : List Char) :
    Token.scan d u q cs = Token.scanString d u q (Token.literal q) cs := by
  have hsign : q ∈ signChars := by rcases h with rfl | ⟨rfl, -⟩ <;> decide
  have hstart := (Regular.sign (d := d) q hsign).1
  rcases h with rfl | ⟨rfl, hopen⟩
  · simp [Token.scan, Token.literal, hstart]
  · simp [Token.scan, Token.literal, hstart, hopen]

end Dialect.OpensString

namespace Token

variable {d : Dialect} {u : Bool} {q : Char} {v : String}

/-- The value of a literal is what its escaped text is read as. -/
def Rereads (d : Dialect) (u : Bool) (q : Char) (v : String) : Prop :=
  ∃ units : List StringUnit, (∀ x ∈ units, x.Legal d.backslashEscape q) ∧
    escapeFrom q '\x00' v.toList = units.flatMap (StringUnit.written q) ∧
    stringValue u q units = v

theorem toList_enclose (q : Char) (v : String) :
    (enclose q v).toList = q :: (escapeFrom q '\x00' v.toList ++ [q]) := by
  simp [enclose, escape]

/-- Such a literal is read back wherever no further quote stands behind it. -/
theorem Spelled.literal [d.Regular] (hq : d.OpensString q) (h : Rereads d u q v) :
    (literal q v).Spelled d u := by
  obtain ⟨units, hlegal, hescape, hvalue⟩ := h
  refine ⟨q, escapeFrom q '\x00' v.toList ++ [q], by rw [hq.text_literal, toList_enclose],
    fun rest hrest => ?_⟩
  have hstop : rest.head? ≠ some q := fun hhead => hq.stops_literal.mp (hrest q hhead) rfl
  have hread := StringUnit.read_written hq.ne_backslash hlegal hstop
  rw [hq.scan_eq, scanString_eq, hescape, List.append_assoc, List.singleton_append, hread]
  simp [hvalue]

/-- Literals with one quote are told apart by their values. -/
theorem literal_inj {v w : String} (h : literal q v = literal q w) : v = w := by
  unfold literal at h
  split at h
  · exact Token.doubleQuoted.inj h
  · exact Token.singleQuoted.inj h

/-- A text that is a single token. -/
theorem lex_single {text : String} {c : Char} {cs : List Char} {t : Token}
    (htext : text.toList = c :: cs) (hscan : scan d u c cs = .ok (t, cs.length)) :
    lex d u text = .ok [⟨t, .start⟩] := by
  rw [lex, htext]
  exact lexFrom_ok.mpr (.inr ⟨c, cs, t, cs.length, [], rfl, hscan,
    lexFrom_ok.mpr (.inl ⟨List.drop_length, rfl⟩), rfl⟩)

/-- A spelled token is the only one of its text. -/
theorem Spelled.lex_alone {t : Token} (h : t.Spelled d u) :
    lex d u t.text = .ok [⟨t, .start⟩] := by
  obtain ⟨c, cs, htext, hscan⟩ := h
  have hscan' := hscan [] (by simp)
  rw [List.append_nil] at hscan'
  exact lex_single htext hscan'

/-- A literal is the only token of its text exactly if its escaped text is read as its
    value. -/
theorem lex_literal [d.Regular] (hq : d.OpensString q) :
    lex d u (literal q v).text = .ok [⟨literal q v, .start⟩] ↔ Rereads d u q v := by
  constructor
  · intro h
    rw [hq.text_literal, lex, toList_enclose] at h
    rcases lexFrom_ok.mp h with ⟨hcs, -⟩ | ⟨_, _, token, width, tail, hcs, hscan, htail, heq⟩
    · exact nomatch hcs
    obtain ⟨rfl, rfl⟩ := List.cons.inj hcs
    obtain ⟨htoken, rfl⟩ := List.cons.inj heq
    obtain rfl : literal q v = token := congrArg Located.token htoken
    rw [hq.scan_eq] at hscan
    obtain ⟨units, hread, hvalue, rfl⟩ := scanString_ok hscan
    obtain ⟨hlegal, rest, hsplit, -⟩ := StringUnit.opens_of_read hread
    -- nothing is left behind the literal, so its closing quote is the last character
    have hend : rest = [] := by
      rcases lexFrom_ok.mp htail with ⟨hdrop, -⟩ | ⟨_, _, _, _, _, _, _, _, hnil⟩
      · rw [hsplit] at hdrop
        simpa [List.drop_append] using hdrop
      · exact nomatch hnil
    subst hend
    exact ⟨units, hlegal, List.append_cancel_right hsplit, (literal_inj hvalue).symm⟩
  · intro h
    exact Spelled.lex_alone (.literal hq h)

/-- Where a literal was read, its quote opens one, and its value is that of its units. -/
theorem units_of_mem {text : String} {tokens : List Located} {t : Located}
    (h : lex d u text = .ok tokens) (ht : t ∈ tokens) (hq : q = '\'' ∨ q = '"')
    (hv : t.token = literal q v) :
    d.OpensString q ∧ ∃ units : List StringUnit,
      (∀ x ∈ units, x.Legal d.backslashEscape q) ∧ stringValue u q units = v := by
  have hscanned := scanned_of_mem h ht
  rw [hv] at hscanned
  have hplain : literal q v = .singleQuoted v ∧ q = '\'' ∨
      literal q v = .doubleQuoted v ∧ q = '"' := by
    rcases hq with rfl | rfl
    · exact .inl ⟨rfl, rfl⟩
    · exact .inr ⟨rfl, rfl⟩
  generalize literal q v = token at hscanned hplain
  cases hscanned with
  | string hopens hread =>
      have hlegal := (StringUnit.opens_of_read hread).legal
      rcases hopens with rfl | ⟨rfl, hopen⟩ <;>
        rcases hplain with ⟨hvalue, rfl⟩ | ⟨hvalue, rfl⟩ <;>
        simp only [literal, reduceIte, Char.reduceEq, reduceCtorEq, Token.singleQuoted.injEq,
          Token.doubleQuoted.injEq] at hvalue
      · exact ⟨.inl rfl, _, hlegal, hvalue⟩
      · exact ⟨.inr ⟨rfl, hopen⟩, _, hlegal, hvalue⟩
  | blank | bareWord | quotedWord | number | char => simp at hplain
  | sign hsign => rcases hplain with ⟨rfl, -⟩ | ⟨rfl, -⟩ <;> exact hsign.elim

end Token

/-! ## Which literals survive -/

namespace Text

/-- The value between these quotes has no two of them in a row, none directly behind a
    backslash and, where a backslash escapes, no backslash. -/
def Plain (backslash : Bool) (quote : Char) (v : String) : Prop :=
  ¬ [quote, quote] <:+: v.toList ∧ ¬ ['\\', quote] <:+: v.toList ∧
    (backslash = true → '\\' ∉ v.toList)

instance (backslash : Bool) (quote : Char) (v : String) :
    Decidable (Plain backslash quote v) :=
  inferInstanceAs (Decidable (_ ∧ _ ∧ _))

/-- Every quote of the text stands behind no backslash or, where a backslash escapes, behind
    an odd number of them. -/
def Unescaped (backslash : Bool) (quote : Char) (v : String) : Prop :=
  ∀ front rest, v.toList = front ++ quote :: rest →
    trailing front = 0 ∨ (backslash = true ∧ trailing front % 2 = 1)

end Text

namespace Token

variable {d : Dialect} {u : Bool} {q : Char} {v : String}

/-- A decoded value is read back exactly where it is plain. -/
theorem rereads_decoded (hq : d.OpensString q) :
    Rereads d true q v ↔ Plain d.backslashEscape q v := by
  rw [Plain, ← StringUnit.exists_decoded hq.ne_backslash]
  refine exists_congr fun units => and_congr_right fun _ => and_congr_right fun _ => ?_
  show String.ofList (units.map (StringUnit.value q)) = v ↔ _
  rw [String.ofList_eq]

/-- A value as it is written is read back exactly where none of its units is changed by escaping. -/
theorem rereads_raw (hq : d.OpensString q) {units : List StringUnit}
    (hlegal : ∀ x ∈ units, x.Legal d.backslashEscape q) (hv : stringValue false q units = v) :
    Rereads d false q v ↔ Unescaped d.backslashEscape q v := by
  -- in raw mode a value is the text of its units, so the units of two readings agree
  have hwritten : ∀ units, stringValue false q units = v →
      v.toList = units.flatMap (StringUnit.written q) := by
    rintro units rfl
    exact String.toList_ofList
  have heven : d.backslashEscape = true → trailing [] % 2 = 0 := fun _ => rfl
  have hguard : Unescaped d.backslashEscape q v ↔
      StringUnit.Guarded d.backslashEscape q [] v.toList := Iff.rfl
  rw [hguard]
  constructor
  · rintro ⟨units', hlegal', hescape, hv'⟩
    have hsame := hwritten units' hv'
    rw [hsame, ← StringUnit.escapeFrom_written hq.ne_backslash hlegal' heven]
    rwa [hsame] at hescape
  · intro h
    have hsame := hwritten units hv
    rw [hsame, ← StringUnit.escapeFrom_written hq.ne_backslash hlegal heven] at h
    exact ⟨units, hlegal, hsame ▸ h, hv⟩

/-- A string literal that the lexer accepted is printed as a text that is read back.  Where
    literals are decoded, this holds exactly of the values that are `Plain`; where they are
    kept as they are written, of those in which no quote stands behind backslashes that do not
    escape it. -/
theorem lex_text_literal (hd : d ∈ Dialect.builtin) {text : String} {tokens : List Located}
    (h : lex d u text = .ok tokens) {t : Located} (ht : t ∈ tokens) (hq : q = '\'' ∨ q = '"')
    (hv : t.token = literal q v) :
    (u = true → (lex d u t.token.text = .ok [⟨t.token, .start⟩] ↔
      Plain d.backslashEscape q v)) ∧
    (u = false → (lex d u t.token.text = .ok [⟨t.token, .start⟩] ↔
      Unescaped d.backslashEscape q v)) := by
  have := Dialect.regular_of_builtin hd
  obtain ⟨hopens, units, hlegal, hunits⟩ := units_of_mem h ht hq hv
  rw [hv, lex_literal hopens]
  constructor
  · rintro rfl
    exact rereads_decoded hopens
  · rintro rfl
    exact rereads_raw hopens hlegal hunits

/-- An apostrophe in a decoded literal is doubled again. -/
theorem lex_text_apostrophe :
    lex .mysql true "'it''s'" = .ok [⟨.singleQuoted "it's", .start⟩] ∧
      lex .mysql true (Token.singleQuoted "it's").text = .ok [⟨.singleQuoted "it's", .start⟩] := by
  have h : lex .mysql true "'it''s'" = .ok [⟨.singleQuoted "it's", .start⟩] :=
    lex_single rfl (by decide +kernel)
  have hiff := (lex_text_literal (by simp [Dialect.builtin]) h List.mem_cons_self (.inl rfl)
    (rfl : _ = literal '\'' "it's")).1 rfl
  exact ⟨h, hiff.mpr (by decide)⟩

/-- Two apostrophes in a decoded literal are taken for one that is doubled already. -/
theorem lex_text_apostrophes :
    lex .generic true "'a''''b'" = .ok [⟨.singleQuoted "a''b", .start⟩] ∧
      (Token.singleQuoted "a''b").text = "'a''b'" ∧
      lex .generic true "'a''b'" = .ok [⟨.singleQuoted "a'b", .start⟩] ∧
      lex .generic true (Token.singleQuoted "a''b").text ≠
        .ok [⟨.singleQuoted "a''b", .start⟩] := by
  have hread : lex .generic true "'a''b'" = .ok [⟨.singleQuoted "a'b", .start⟩] :=
    lex_single rfl (by decide +kernel)
  refine ⟨lex_single rfl (by decide +kernel), rfl, hread, ?_⟩
  rw [show (Token.singleQuoted "a''b").text = "'a''b'" from rfl, hread]
  simp

end Token

end SchemaSql
