import SchemaSql.Proofs.Locality.Captures
import SchemaSql.Proofs.Spelling.Adjacent

/-! # Captured text — written back from tokens and read again

    Captured text keeps of all blanks and comments only that there were some.

    * `condensed` are its tokens: one space stands for a run of blanks, and none next to the
      inside of a parenthesis or at an end.
    * `CapturedText.ofTokens_eq` says that they have the text that is captured. The writer looks
      at the last character where the definition looks at the last token; no token but the
      opening parenthesis ends with one.
    * `legible_condensed` says that they are read back: two tokens have a space between them,
      or stood side by side before, or one of them is a parenthesis.
    * `groupTokens_shortest` and `valueTokens_first` say how far the readers go, and
      `Parser.captures_reread` puts it together. -/

namespace SchemaSql

open Token

variable {d : Dialect} {ts : List Token}

/-- The tokens behind `left`, with a space for each run of blanks.  There is none behind an
    opening or in front of a closing parenthesis, and none at the end.  `gap` says whether
    blanks stand behind `left`. -/
def condensedBehind (left : Token) (gap : Bool) : List Token → List Token
  | [] => []
  | t :: ts =>
    if t.isWhitespace then condensedBehind left true ts
    else if gap ∧ left ≠ .lparen ∧ t ≠ .rparen then .space :: t :: condensedBehind t false ts
    else t :: condensedBehind t false ts

/-- Tokens with a space for each run of blanks that stands between two of them. -/
def condensed : List Token → List Token
  | [] => []
  | t :: ts => if t.isWhitespace then condensed ts else t :: condensedBehind t false ts

example : condensed [.space, .lparen, .space, .comma, .whitespace .tab, .space, .eq, .space,
    .rparen] = [.lparen, .comma, .space, .eq, .rparen] := by decide

/-- Making blanks one space each keeps the other tokens. -/
theorem solid_condensedBehind (left : Token) (gap : Bool) (ts : List Token) :
    solid (condensedBehind left gap ts) = solid ts := by
  fun_induction condensedBehind left gap ts with
  | case1 => rfl
  | case2 left gap t ts hblank ih => simp [hblank, ih]
  | case3 left gap t ts hblank _ ih => simp [hblank, ih]
  | case4 left gap t ts hblank _ ih => simp [ih]

/-- Nothing but blanks is lost or added. -/
theorem solid_condensed (ts : List Token) : solid (condensed ts) = solid ts := by
  induction ts with
  | nil => rfl
  | cons t ts ih =>
      rw [condensed, solid_cons]
      split
      · simp [ih]
      · next hblank => simp [hblank, solid_condensedBehind]

/-! ## The text -/

/-- The token ends with an opening parenthesis only if it is one. -/
def Token.EndsApart (t : Token) : Prop :=
  ∃ front x, t.text.toList = front ++ [x] ∧ (x = '(' ↔ t = .lparen)

theorem Token.EndsApart.of_notMem {t : Token} {c : Char} {cs : List Char}
    (htext : t.text.toList = c :: cs) (hparen : '(' ∉ c :: cs) (ht : t ≠ .lparen) :
    t.EndsApart := by
  have hne : c :: cs ≠ [] := by simp
  refine ⟨(c :: cs).dropLast, (c :: cs).getLast hne, ?_, iff_of_false ?_ ht⟩
  · rw [htext, List.dropLast_concat_getLast]
  · intro hlast
    exact hparen (hlast ▸ List.getLast_mem hne)

theorem Token.EndsApart.literal {q : Char} (hq : d.OpensString q) (v : String) :
    (Token.literal q v).EndsApart := by
  refine ⟨q :: Text.escapeFrom q '\x00' v.toList, q, ?_, ?_⟩
  · rw [hq.text_literal, toList_enclose]
    rfl
  · rcases hq with rfl | ⟨rfl, -⟩ <;> exact iff_of_false (by decide) (by rintro ⟨⟩)

/-- Only the text of a parenthesis ends in one, so what a capture has last tells which token was
    last. -/
theorem Token.Lexable.endsApart [d.Regular] {t : Token} (h : t.Lexable d) : t.EndsApart := by
  cases h with
  | @bareWord v hv =>
      obtain ⟨c, cs, hcs, hc, hrest⟩ := hv
      have hparen := Dialect.Regular.sign (d := d) '(' (by decide)
      refine .of_notMem hcs ?_ (by simp)
      rintro (_ | ⟨_, hmem⟩)
      · simp [hparen.1] at hc
      · simpa [hparen.2] using hrest _ hmem
  | @quotedWord q v hq hv =>
      have hclose := closingQuote_eq hq
      refine ⟨q :: v.toList, q, by simp [Token.text, Word.text, Word.of, hclose],
        iff_of_false ?_ (by simp)⟩
      rcases Dialect.Regular.opens q hq with rfl | rfl <;> decide
  | @number c ds hc hds long =>
      -- a number is digits with a period and a suffix, none of which is a parenthesis
      have hdigit : ∀ x : Char, x.isDigit = true → x ≠ '(' := by
        rintro _ h rfl
        exact absurd h (by decide)
      have hdigits : '(' ∉ c :: ds := by
        obtain ⟨whole, hwhole, rfl | ⟨fraction, hfraction, rfl⟩⟩ := hds
        · simp only [List.mem_cons, not_or]
          exact ⟨(hdigit c hc).symm, fun h => hdigit _ (hwhole _ h) rfl⟩
        · simp only [List.mem_cons, List.mem_append, not_or]
          exact ⟨(hdigit c hc).symm, fun h => hdigit _ (hwhole _ h) rfl, by decide,
            fun h => hdigit _ (hfraction _ h) rfl⟩
      cases long with
      | true =>
          have htext :
              (Token.number (.ofList (c :: ds)) true).text.toList = c :: (ds ++ ['L']) := by
            simp [Token.text]
          exact .of_notMem htext (by simpa using hdigits) (by simp)
      | false => exact .of_notMem (by simp [Token.text]) hdigits (by simp)
  | string hq _ _ => exact .literal hq _
  | sign hsign =>
      cases t <;> first
        | exact hsign.elim
        | exact ⟨[], _, rfl, by decide⟩
        | exact ⟨[_], _, rfl, by decide⟩
        | exact ⟨[_, _], _, rfl, by decide⟩
  | @char c hc =>
      refine ⟨[], c, by simp [Token.text], iff_of_false ?_ (by simp)⟩
      rintro rfl
      have hparen : lex d true (Token.text .lparen) = .ok [⟨.lparen, .start⟩] :=
        lex_single rfl (scan_sign (by decide) [] (by simp) (by simp))
      cases hparen.symm.trans hc

namespace CapturedText

/-- A token is captured with a space in front of it if there was a gap, unless a parenthesis makes
    the space needless. -/
theorem push_solid {t : Token} (h : t.isWhitespace = false) (captured : CapturedText) :
    captured.push t = ⟨t.text.toList.reverse ++
      (if captured.gap && captured.reversed.head? != some '(' && t != .rparen
        then ' ' :: captured.reversed else captured.reversed), false⟩ := by
  cases t <;> first | rfl | cases h

/-- Capturing tokens one by one captures the text of the condensed tokens. -/
theorem foldl_push (hts : ∀ t ∈ ts, t.isWhitespace = false → t.EndsApart) {left : Token}
    {before : List Char} (hne : before ≠ []) (hleft : before.head? = some '(' ↔ left = .lparen)
    (gap : Bool) : (ts.foldl push ⟨before, gap⟩).reversed.reverse
      = before.reverse ++ (textOf (condensedBehind left gap ts)).toList := by
  induction ts generalizing left before gap with
  | nil => simp [condensedBehind]
  | cons t ts ih =>
      obtain ⟨ht, hts⟩ := List.forall_mem_cons.mp hts
      rw [List.foldl_cons, condensedBehind]
      cases hblank : t.isWhitespace with
      | true =>
          -- a blank is only noted: it becomes a space if something solid follows
          have hpush : push ⟨before, gap⟩ t = ⟨before, true⟩ := by
            cases t <;> simp [Token.isWhitespace] at hblank
            simp [push, hne]
          rw [hpush, if_pos rfl]
          exact ih hts hne hleft true
      | false =>
          obtain ⟨front, x, htext, hx⟩ := ht hblank
          -- the space goes in front of `t` unless a parenthesis is at its left or `t` closes one
          have hspace : (gap && before.head? != some '(' && t != .rparen) = true ↔
              gap = true ∧ left ≠ .lparen ∧ t ≠ .rparen := by
            simp [← hleft, and_assoc]
          rw [push_solid hblank, ih hts (by simp [htext]) (by simpa [htext] using hx)]
          simp only [hspace, Bool.false_eq_true, if_false]
          split
          · simp
          · simp

/-- Captured text is the text of its condensed tokens. -/
theorem ofTokens_eq (hts : ∀ t ∈ ts, t.isWhitespace = false → t.EndsApart) :
    ofTokens ts = textOf (condensed ts) := by
  induction ts with
  | nil => rfl
  | cons t ts ih =>
      obtain ⟨ht, hts⟩ := List.forall_mem_cons.mp hts
      rw [condensed]
      cases hblank : t.isWhitespace with
      | true =>
          rw [if_pos rfl, ← ih hts]
          exact ofTokens_blanks [t] ts (by simp [hblank])
      | false =>
          obtain ⟨front, x, htext, hx⟩ := ht hblank
          have hlast : t.text.toList.reverse.head? = some '(' ↔ t = .lparen := by
            simpa [htext] using hx
          have hbehind := foldl_push hts (by simp [htext]) hlast false
          rw [ofTokens, List.foldl_cons, push_solid hblank]
          simp [hbehind]

end CapturedText

/-! ## Reading it again -/

section

variable {u : Bool} {rest : List Token}

theorem Token.Spelled.stopsAt {left t : Token} (ht : t.Spelled d u)
    (hstop : ∀ x ∈ t.text.toList.head?, left.Stops d x) (P : List Token) :
    left.StopsAt d (t :: P) := by
  obtain ⟨c, cs, htext, -⟩ := ht
  rw [htext] at hstop
  intro x hx
  exact hstop x (by simpa [htext] using hx)

variable [d.Regular]

/-- The tokens behind `left` may have lost blanks next to a parenthesis only, so `left` still
    ends where it did. -/
theorem legible_condensedBehind {left : Token} (hleft : left.Spelled d u) {gap : Bool}
    (hts : ∀ t ∈ ts, t.isWhitespace = false → t.Spelled d u) (hchain : ts.IsChain (Fits d))
    (hfits : gap = false → ∀ t ∈ ts.head?, Fits d left t) (hstop : ∀ t : Token, t.StopsAt d rest)
    (hrest : Legible d u rest) : Legible d u (left :: (condensedBehind left gap ts ++ rest)) := by
  induction ts generalizing left gap with
  | nil => exact ⟨hleft, hstop left, hrest⟩
  | cons t ts ih =>
      obtain ⟨ht, hts⟩ := List.forall_mem_cons.mp hts
      rw [condensedBehind]
      cases hblank : t.isWhitespace with
      | true =>
          rw [if_pos rfl]
          exact ih hleft hts hchain.tail nofun
      | false =>
          have hsolid := ht hblank
          have htail : Legible d u (t :: (condensedBehind t false ts ++ rest)) :=
            ih hsolid hts hchain.tail fun _ _ ht' => hchain.rel_head? ht'
          rw [if_neg Bool.false_ne_true]
          split
          · refine ⟨hleft, fun x hx => ?_, .space, fun _ _ => trivial, htail⟩
            obtain rfl : x = ' ' := by simpa using hx.symm
            exact left.stops_of_sign (by decide) (by decide)
          · next hparen =>
              refine ⟨hleft, hsolid.stopsAt ?_ _, htail⟩
              cases gap with
              | false => exact hfits rfl t rfl hblank
              | true =>
                  -- blanks are missing only next to the inside of a parenthesis
                  obtain rfl | rfl : left = .lparen ∨ t = .rparen := by
                    by_contra hne
                    exact hparen ⟨rfl, not_or.mp hne⟩
                  · exact fun _ _ => trivial
                  · intro x hx
                    obtain rfl : ')' = x := by simpa [Token.text] using hx
                    exact left.stops_of_sign (by decide) (by decide)

/-- Tokens that stood next to each other are still read apart, and the others have their space. -/
theorem legible_condensed (hts : ∀ t ∈ ts, t.isWhitespace = false → t.Spelled d u)
    (hchain : ts.IsChain (Fits d)) (hstop : ∀ t : Token, t.StopsAt d rest)
    (hrest : Legible d u rest) : Legible d u (condensed ts ++ rest) := by
  induction ts with
  | nil => exact hrest
  | cons t ts ih =>
      obtain ⟨ht, hts⟩ := List.forall_mem_cons.mp hts
      rw [condensed]
      cases hblank : t.isWhitespace with
      | true => exact ih hts hchain.tail
      | false =>
          exact legible_condensedBehind (ht hblank) hts hchain.tail
            (fun _ _ ht' => hchain.rel_head? ht') hstop hrest

end

section

variable (hd : d ∈ Dialect.builtin)
include hd

/-- The text captured from tokens that stand next to each other in a text has the condensed
    tokens. -/
theorem CapturedText.lex_ofTokens {sql : String} {tokens part : List Located}
    (h : lex d true sql = .ok tokens) (hplain : ∀ t ∈ tokens, t.token.Unambiguous)
    (hpart : part <:+: tokens) :
    ∃ again, lex d true (ofTokens (part.map Located.token)) = .ok again ∧
      again.map Located.token = condensed (part.map Located.token) := by
  have := Dialect.regular_of_builtin hd
  have hts : ∀ t ∈ part.map Located.token, t.isWhitespace = false → t.Lexable d := by
    intro t ht hblank
    obtain ⟨l, hl, rfl⟩ := List.mem_map.mp ht
    exact lexable_of_mem hd h (hpart.mem hl) hblank (hplain l (hpart.mem hl))
  have hchain : (part.map Located.token).IsChain (Fits d) :=
    List.IsChain.infix (chain_of_lex h) (hpart.map _)
  rw [ofTokens_eq fun t ht hblank => (hts t ht hblank).endsApart]
  have hlegible : Legible d true (condensed (part.map Located.token) ++ []) := legible_condensed
    (fun t ht hblank => ((hts t ht hblank).spelled hd).1) hchain (by simp [StopsAt]) trivial
  rw [List.append_nil] at hlegible
  exact hlegible.lexes .start

end

namespace Parser

/-! ## Where captured text ends -/

/-- A group ends with the parenthesis that closes it: in front of each of its tokens some group
    is open. -/
theorem groupTokens_shortest {inner : Nat} {w group : List Located}
    (h : groupTokens inner w = some group) : parenDepth (inner + 1) group = some 0 ∧
      ∀ p t q, group = p ++ t :: q → ∃ k, parenDepth (inner + 1) p = some (k + 1) := by
  induction w generalizing inner group with
  | nil => simp [groupTokens] at h
  | cons t w ih =>
      -- every arm reads one token and goes on at a depth that `parenDepth` reaches too
      have hstep : ∀ n, (t :: ·) <$> groupTokens n w = some group →
          (∀ u, parenDepth (inner + 1) (t :: u) = parenDepth (n + 1) u) →
          parenDepth (inner + 1) group = some 0 ∧
            ∀ p t q, group = p ++ t :: q → ∃ k, parenDepth (inner + 1) p = some (k + 1) := by
        intro n hsome hdepth
        rw [Option.map_eq_map, Option.map_eq_some_iff] at hsome
        obtain ⟨tail, htail, rfl⟩ := hsome
        obtain ⟨hbalanced, hopen⟩ := ih htail
        refine ⟨by rw [hdepth, hbalanced], fun p t' q hsplit => ?_⟩
        cases p with
        | nil => exact ⟨inner, rfl⟩
        | cons x p =>
            obtain ⟨rfl, htail⟩ := List.cons.inj hsplit
            rw [hdepth]
            exact hopen p t' q htail
      cases htok : t.token with
      | eof => simp [groupTokens, htok] at h
      | lparen =>
          simp only [groupTokens, htok] at h
          exact hstep (inner + 1) h fun u => by simp only [parenDepth, htok]
      | rparen =>
          cases inner with
          | zero =>
              simp only [groupTokens, htok] at h
              obtain rfl := Option.some.inj h
              refine ⟨by simp [parenDepth, htok], fun p t' q hsplit => ?_⟩
              -- this parenthesis ends the group, so only the empty list is strictly in front of its
              -- end
              obtain rfl : p = [] := by
                cases p with
                | nil => rfl
                | cons x p => simp at hsplit
              exact ⟨0, rfl⟩
          | succ inner =>
              simp only [groupTokens, htok] at h
              exact hstep inner h fun u => by simp only [parenDepth, htok]
      | _ =>
          simp only [groupTokens, htok] at h
          exact hstep inner h fun u => by simp only [parenDepth, htok]

/-- A value ends in front of the first token that ends one. -/
theorem valueTokens_first (n : Nat) (w rest : List Located) :
    ∀ p t q, valueTokens n w = p ++ t :: q →
      ∃ k, parenDepth n p = some k ∧ ¬ EndsValue k (t :: q ++ rest) := by
  induction w generalizing n with
  | nil => simp [valueTokens]
  | cons t w ih =>
      intro p t' q hsplit
      -- the value goes on behind `t`, so `t` does not end it
      have hends : ¬ EndsValue n (t :: w) := by
        intro hends
        rw [hends.nil_of_ends] at hsplit
        simp at hsplit
      have hstep : ∀ k, valueTokens n (t :: w) = t :: valueTokens k w →
          (∀ u, parenDepth n (t :: u) = parenDepth k u) →
          ∃ k, parenDepth n p = some k ∧ ¬ EndsValue k (t' :: q ++ rest) := by
        intro k hvalue hdepth
        rw [hvalue] at hsplit
        cases p with
        | nil =>
            obtain ⟨rfl, -⟩ := List.cons.inj hsplit
            exact ⟨n, rfl, hends⟩
        | cons x p =>
            obtain ⟨rfl, htail⟩ := List.cons.inj hsplit
            rw [hdepth]
            exact ih k p t' q htail
      cases htok : t.token with
      | eof | semicolon => simp [valueTokens, htok] at hsplit
      | lparen =>
          exact hstep (n + 1) (by simp only [valueTokens, htok])
            fun u => by simp only [parenDepth, htok]
      | rparen =>
          cases n with
          | zero => simp [valueTokens, htok] at hsplit
          | succ n =>
              exact hstep n (by simp only [valueTokens, htok])
                fun u => by simp only [parenDepth, htok]
      -- a comma ends the value at depth 0 only
      | comma =>
          cases n with
          | zero => simp [valueTokens, htok] at hsplit
          | succ n =>
              exact hstep (n + 1) (by simp only [valueTokens, htok])
                fun u => by simp only [parenDepth, htok]
      | _ =>
          exact hstep n (by simp only [valueTokens, htok])
            fun u => by simp only [parenDepth, htok]

/-- The shortest group that starts here: it opens with a parenthesis, and no front part of it
    closes all that it opens. -/
structure ShortestGroup (group : List Located) : Prop where
  opens    : ∃ t tail, group = t :: tail ∧ t.token = .lparen
  balanced : parenDepth 0 group = some 0
  shortest : ∀ p t q, group = p ++ t :: q → p ≠ [] → parenDepth 0 p ≠ some 0

/-- The value that ends in front of `rest`: it closes no group that it does not open, and none
    of its tokens ends it. -/
structure ValueUpTo (value rest : List Located) : Prop where
  ends  : ∃ m, parenDepth 0 value = some m ∧ EndsValue m rest
  first : ∀ p t q, value = p ++ t :: q →
    ∃ k, parenDepth 0 p = some k ∧ ¬ EndsValue k (t :: q ++ rest)

/-- What a successful reading of a group consumed. -/
theorem groupText_split {ctx : Context} {c c' : Cursor} {text : String}
    (h : groupText ctx c = .ok text c') : ∃ blanks group,
      c.unread = blanks ++ group ++ c'.unread ∧ (∀ t ∈ blanks, t.isWhitespace = true) ∧
        ShortestGroup group ∧ text = CapturedText.ofTokens (group.map Located.token) := by
  obtain ⟨hparen, group, hgroup, rfl, rfl⟩ := groupText_ok.mp h
  cases hrest : c.rest with
  | nil =>
      rw [Cursor.peek_eq, hrest] at hparen
      exact nomatch hparen
  | cons t w =>
      have ht : t.token = .lparen := by rwa [Cursor.peek_eq, hrest] at hparen
      have hnext := congrArg (fun found => found.2.unread) (Cursor.next_of_rest_cons hrest)
      dsimp only at hnext
      rw [hnext] at hgroup
      obtain ⟨tail, rfl, -⟩ := groupTokens_front hgroup
      obtain ⟨hbalanced, hopen⟩ := groupTokens_shortest hgroup
      -- behind the opening parenthesis the count starts at 1, as the loop does
      have hdepth : ∀ u, parenDepth 0 (t :: u) = parenDepth 1 u := fun u => by
        simp only [parenDepth, ht]
      refine ⟨c.unread.takeWhile Located.isWhitespace, t :: group, ?_,
        fun x hx => List.mem_takeWhile_imp hx,
        ⟨⟨t, group, rfl, ht⟩, by rw [hdepth, hbalanced], ?_⟩, by rw [List.map_cons, ht]⟩
      · have hleft : (c.next.2.skip group.length).unread = tail := by
          show c.next.2.unread.drop group.length = tail
          rw [hnext, List.drop_left]
        have hunread := c.unread_eq
        rw [hrest] at hunread
        rw [hleft, List.append_assoc]
        exact hunread
      -- nothing shorter is balanced: a non-empty beginning has the opening parenthesis in it
      · intro p t' q hsplit hp
        cases p with
        | nil => exact absurd rfl hp
        | cons x p =>
            obtain ⟨rfl, hgroup⟩ := List.cons.inj hsplit
            obtain ⟨k, hk⟩ := hopen p t' q hgroup
            rw [hdepth, hk]
            simp

/-- What a successful reading of a value consumed. -/
theorem valueText_split {ctx : Context} {c c' : Cursor} {text : String}
    (h : valueText ctx c = .ok text c') : ∃ value, c.unread = value ++ c'.unread ∧
      ValueUpTo value c'.unread ∧ text = CapturedText.ofTokens (value.map Located.token) := by
  obtain ⟨-, rfl, rfl⟩ := valueText_ok.mp h
  obtain ⟨m, tail, hsplit, hdepth, hends, -⟩ := valueTokens_front 0 c.unread
  have hleft : (c.skip (valueTokens 0 c.unread).length).unread = tail := by
    show c.unread.drop (valueTokens 0 c.unread).length = tail
    conv => lhs; arg 2; rw [hsplit]
    exact List.drop_left
  rw [hleft]
  exact ⟨_, hsplit, ⟨⟨m, hdepth, hends⟩, valueTokens_first 0 c.unread tail⟩, rfl⟩

/-- The text is read as these tokens, but for the blanks that it leaves out. -/
def RereadAs (d : Dialect) (text : String) (consumed : List Located) : Prop :=
  ∃ again, lex d true text = .ok again ∧
    again.map Located.token = condensed (consumed.map Located.token) ∧
    solid (again.map Located.token) = solid (consumed.map Located.token)

/-- **Captured text is faithful.**  In a text whose literals are unambiguous, a captured group
    or value is read again as the tokens that were consumed, with one space where blanks stood
    between two of them and neither is the inside of a parenthesis.  A group takes the shortest
    balanced group behind the blanks in front; a value ends in front of the first token that
    ends one, and no parenthesis is closed in it that was not opened. -/
theorem captures_reread {d : Dialect} (hd : d ∈ Dialect.builtin) {sql : String} {c : Cursor}
    (h : lex d true sql = .ok c.tokens) (hplain : ∀ t ∈ c.tokens, t.token.Unambiguous)
    (ctx : Context) :
    (∀ text c', groupText ctx c = .ok text c' → ∃ blanks group,
      c.unread = blanks ++ group ++ c'.unread ∧ (∀ t ∈ blanks, t.isWhitespace = true) ∧
        ShortestGroup group ∧ RereadAs d text group) ∧
    (∀ text c', valueText ctx c = .ok text c' → ∃ value,
      c.unread = value ++ c'.unread ∧ ValueUpTo value c'.unread ∧ RereadAs d text value) := by
  -- a part of what was lexed re-lexes to its tokens with the blanks condensed
  have hreread : ∀ front part rest : List Located, c.unread = front ++ part ++ rest →
      RereadAs d (CapturedText.ofTokens (part.map Located.token)) part := by
    intro front part rest hunread
    have hpart : part <:+: c.tokens :=
      List.IsInfix.trans ⟨front, rest, hunread.symm⟩ (List.suffix_append _ _).isInfix
    obtain ⟨again, hagain, htokens⟩ := CapturedText.lex_ofTokens hd h hplain hpart
    exact ⟨again, hagain, htokens, by rw [htokens, solid_condensed]⟩
  refine ⟨fun text c' hrun => ?_, fun text c' hrun => ?_⟩
  · obtain ⟨blanks, group, hunread, hblanks, hshortest, rfl⟩ := groupText_split hrun
    exact ⟨blanks, group, hunread, hblanks, hshortest, hreread _ _ _ hunread⟩
  · obtain ⟨value, hunread, hupTo, rfl⟩ := valueText_split hrun
    exact ⟨value, hunread, hupTo, hreread [] value _ hunread⟩

/-- A group with a sign in its other spelling, a quote in a literal, and blanks next to its
    parentheses. -/
theorem captures_reread_group :
    let sql := "( a!='it''s' -- no\n), b"
    let group : List Located := [⟨.lparen, ⟨1, 1⟩⟩, ⟨.whitespace .space, ⟨1, 2⟩⟩,
      ⟨.word (.of "a" none), ⟨1, 3⟩⟩, ⟨.neq, ⟨1, 4⟩⟩, ⟨.singleQuoted "it's", ⟨1, 6⟩⟩,
      ⟨.whitespace .space, ⟨1, 13⟩⟩, ⟨.whitespace (.lineComment " no\n" "--"), ⟨1, 14⟩⟩,
      ⟨.rparen, ⟨2, 1⟩⟩]
    let rest : List Located := [⟨.comma, ⟨2, 2⟩⟩, ⟨.whitespace .space, ⟨2, 3⟩⟩,
      ⟨.word (.of "b" none), ⟨2, 4⟩⟩]
    let c : Cursor := .ofTokens (group ++ rest)
    lex .mysql true sql = .ok c.tokens ∧ (∀ t ∈ c.tokens, t.token.Unambiguous) ∧
      ∃ c', groupText { dialect := .mysql } c = .ok "(a<>'it''s')" c' ∧ c'.unread = rest ∧
        ∃ blanks group, c.unread = blanks ++ group ++ c'.unread ∧
          (∀ t ∈ blanks, t.isWhitespace = true) ∧ ShortestGroup group ∧
          RereadAs .mysql "(a<>'it''s')" group := by
  intro sql group rest c
  have h : lex .mysql true sql = .ok c.tokens := by decide +kernel
  have hplain : ∀ t ∈ c.tokens, t.token.Unambiguous := by
    simp only [c, group, rest, Cursor.tokens, Cursor.ofTokens, List.reverse_nil, List.nil_append,
      List.cons_append, List.forall_mem_cons, Unambiguous, true_and]
    exact ⟨by decide, List.forall_mem_nil _⟩
  obtain ⟨c', hrun, hrest⟩ : ∃ c', groupText { dialect := .mysql } c = .ok "(a<>'it''s')" c' ∧
      c'.unread = rest := ⟨_, rfl, rfl⟩
  exact ⟨h, hplain, c', hrun, hrest,
    (captures_reread (by simp [Dialect.builtin]) h hplain { dialect := .mysql }).1 _ c' hrun⟩

end Parser

end SchemaSql
