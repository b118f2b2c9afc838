import SchemaSql.Proofs.Progress

/-! # Cursors — looking ahead, reading, and stepping back

    A cursor is asked for tokens in several ways: by looking at the next one or at a later one,
    by listing some of them, and by reading.  All of them skip blanks, and all of them see the
    same: the tokens that are left without the blanks, and the end of the text behind those.

    * `Cursor.ahead` is what they see; `nthSolid_eq`, `next_fst_eq` and `ahead_next` are one
      step each, and `reads_eq` is what a number of reads gives;
    * `Cursor.Beside` are two places of one text with nothing but blanks between them.  Reading
      and stepping back does not lead back to the same place, since it stops in front of the
      token and not in front of the blanks; but it leads beside it (`beside_reads`), and beside
      a place the same is read and the same is stepped back over;
    * `Cursor.ofIndex` is a place by its index, which is where a place between tokens always
      is (`eq_ofIndex`). -/

namespace SchemaSql

namespace Cursor

variable {c d : Cursor}

/-! ## What is seen from a place -/

/-- The tokens that are left, without the blanks. -/
def ahead (c : Cursor) : List Located := c.unread.filter fun t => !t.isWhitespace

/-- What the next `n` reads give, and the place behind them. -/
def reads : Nat → Cursor → List Located × Cursor
  | 0, c => ([], c)
  | n + 1, c => (c.next.1 :: (reads n c.next.2).1, (reads n c.next.2).2)

/-- Blanks in front are not among the tokens that are seen. -/
theorem filter_rest (c : Cursor) : c.rest.filter (fun t => !t.isWhitespace) = c.ahead := by
  conv_rhs => rw [ahead, c.unread_eq, List.filter_append]
  have hblank : (c.unread.takeWhile Located.isWhitespace).filter (fun t => !t.isWhitespace) = [] :=
    List.filter_eq_nil_iff.mpr fun t ht => by simp [List.mem_takeWhile_imp ht]
  rw [hblank, List.nil_append]

/-- The first token of the rest is the first of the tokens ahead. -/
theorem ahead_of_rest {t : Located} {w : List Located} (h : c.rest = t :: w) :
    c.ahead = t :: w.filter fun t => !t.isWhitespace := by
  have ht : t.isWhitespace = false := clean_cons.mp (h ▸ c.clean_rest)
  rw [← filter_rest, h, List.filter_cons_of_pos (by simp [ht])]

/-- Looking ahead by any number of tokens. -/
theorem nthSolid_eq (n : Nat) (w : List Located) :
    nthSolid n w = (w.filter fun t => !t.isWhitespace).getD n .eof := by
  induction w generalizing n with
  | nil => rfl
  | cons t w ih =>
      by_cases ht : t.isWhitespace
      · rw [List.filter_cons_of_neg (by simp [ht]), ← ih n]
        cases n <;> simp [nthSolid, ht]
      · rw [List.filter_cons_of_pos (by simp [ht])]
        cases n with
        | zero => simp [nthSolid, ht]
        | succ n =>
            rw [List.getD_cons_succ, ← ih n]
            simp [nthSolid, ht]

/-- Looking ahead counts in the list of tokens ahead, and finds the end behind it. -/
theorem peekNth_eq (c : Cursor) (n : Nat) : c.peekNth n = c.ahead.getD n .eof :=
  nthSolid_eq n c.unread

/-- A read gives the first token that is seen. -/
theorem next_fst_eq (c : Cursor) : c.next.1 = c.ahead.headD .eof := by
  rw [next_fst, peek, peekNth_eq]
  cases c.ahead <;> rfl

/-- Behind a read the other tokens are seen. -/
theorem ahead_next (c : Cursor) : c.next.2.ahead = c.ahead.tail := by
  cases hrest : c.rest with
  | nil =>
      have hahead : c.ahead = [] := by rw [← filter_rest, hrest, List.filter_nil]
      have hnext : c.next.2.ahead = [] := by
        rw [← filter_rest, (next_of_rest_nil hrest).2, List.filter_nil]
      rw [hnext, hahead, List.tail_nil]
  | cons t w =>
      rw [ahead_of_rest hrest, next_of_rest_cons hrest]
      rfl

/-- Reads give what is seen, token by token, and the end behind the last of them. -/
theorem reads_eq (n : Nat) (c : Cursor) :
    (c.reads n).1 = (List.range n).map (fun k => c.ahead.getD k .eof) ∧
      (c.reads n).2.ahead = c.ahead.drop n := by
  induction n generalizing c with
  | zero => exact ⟨rfl, rfl⟩
  | succ n ih =>
      obtain ⟨htokens, hplace⟩ := ih c.next.2
      constructor
      · show c.next.1 :: (c.next.2.reads n).1 = _
        rw [htokens, List.range_succ_eq_map, List.map_cons, List.map_map, next_fst_eq, ahead_next]
        congr 1
        · cases c.ahead <;> rfl
        · refine List.map_congr_left fun k _ => ?_
          cases c.ahead <;> simp
      · show (c.next.2.reads n).2.ahead = _
        rw [hplace, ahead_next, List.drop_tail]

/-- The tokens that are listed are those that would be read. -/
theorem peekTokens_eq_reads (c : Cursor) (n : Nat) :
    c.peekTokens n = (c.reads n).1.map Located.token := by
  rw [(reads_eq n c).1, peekTokens_eq, List.map_map]
  exact List.map_congr_left fun k _ => congrArg Located.token (c.peekNth_eq k)

/-! ## Places beside each other -/

/-- Two places of one text with nothing but blanks between them, behind which the end was read
    as often. -/
structure Beside (c d : Cursor) : Prop where
  tokens  : c.tokens = d.tokens
  rest    : c.rest = d.rest
  overrun : c.overrun = d.overrun

namespace Beside

theorem self (c : Cursor) : Beside c c := ⟨rfl, rfl, rfl⟩

/-- Places beside one another make up one place, however many there are. -/
theorem trans {e : Cursor} (h : Beside c d) (h' : Beside d e) : Beside c e :=
  ⟨h.tokens.trans h'.tokens, h.rest.trans h'.rest, h.overrun.trans h'.overrun⟩

/-- Beside a place the same tokens are ahead. -/
theorem ahead (h : Beside c d) : c.ahead = d.ahead := by
  rw [← filter_rest, h.rest, filter_rest]

/-- The same tokens were read, up to the blanks behind the last of them. -/
theorem read (h : Beside c d) :
    c.read.dropWhile Located.isWhitespace = d.read.dropWhile Located.isWhitespace := by
  -- what stands in front of the rest: what was read, and the blanks up to the rest
  have hfront : ∀ c : Cursor, c.tokens = (c.read.reverse ++
      c.unread.takeWhile Located.isWhitespace) ++ c.rest := by
    intro c
    rw [List.append_assoc, ← c.unread_eq]
    rfl
  have heq := h.tokens
  rw [hfront c, hfront d, h.rest, List.append_left_inj] at heq
  have hdrop : ∀ c : Cursor, ((c.read.reverse ++
      c.unread.takeWhile Located.isWhitespace).reverse).dropWhile Located.isWhitespace =
        c.read.dropWhile Located.isWhitespace := by
    intro c
    rw [List.reverse_append, List.reverse_reverse]
    refine List.dropWhile_append_of_pos fun t ht => ?_
    exact List.mem_takeWhile_imp (List.mem_reverse.mp ht)
  rw [← hdrop c, ← hdrop d, heq]

end Beside

/-- A place is known by its text, by what was read of it, and by how often the end was read. -/
theorem eq_of_read (htokens : c.tokens = d.tokens) (hread : c.read = d.read)
    (hoverrun : c.overrun = d.overrun) : c = d := by
  obtain ⟨read, unread, overrun⟩ := c
  obtain ⟨read', unread', overrun'⟩ := d
  obtain rfl : read = read' := hread
  obtain rfl : overrun = overrun' := hoverrun
  obtain rfl : unread = unread' := by simpa [tokens] using htokens
  rfl

/-- Beside a place the same is stepped back over. -/
theorem Beside.back (h : Beside c d) : Beside c.back d.back := by
  cases hover : c.overrun with
  | zero =>
      have heq : c.back = d.back := by
        refine eq_of_read ?_ ?_ ?_
        · rw [tokens_back, tokens_back, h.tokens]
        · rw [back_of_overrun_zero hover, back_of_overrun_zero (h.overrun ▸ hover),
            (backFrom_eq _ _).2.1, (backFrom_eq _ _).2.1, h.read]
        · rw [back_of_overrun_zero hover, back_of_overrun_zero (h.overrun ▸ hover),
            (backFrom_eq _ _).2.2, (backFrom_eq _ _).2.2]
      exact heq ▸ .self _
  | succ n =>
      rw [back_of_overrun_succ hover, back_of_overrun_succ (h.overrun ▸ hover)]
      exact ⟨h.tokens, h.rest, rfl⟩

/-- A token that is read and put back is stepped over twice, the blanks in front of it once. -/
theorem beside_next (hc : c.IsPlace) : Beside c.next.2.back c := by
  cases hrest : c.rest with
  | nil =>
      -- past the end the read is counted, and stepping back takes it off the count
      have hnext : c.next.2 = ⟨c.unread.reverse ++ c.read, [], c.overrun + 1⟩ := by
        rw [next, nextFrom_eq]
        rw [Cursor.rest] at hrest
        rw [hrest]
      rw [hnext, back_of_overrun_succ rfl]
      exact ⟨by simp [tokens], by rw [hrest]; rfl, rfl⟩
  | cons t w =>
      have ht : t.isWhitespace = false := clean_cons.mp (hrest ▸ c.clean_rest)
      have hover := hc.overrun hrest
      rw [next_of_rest_cons hrest, hover, back_cons ht]
      refine ⟨?_, ?_, hover.symm⟩
      · show ((c.unread.takeWhile Located.isWhitespace).reverse ++ c.read).reverse ++ t :: w = _
        rw [List.reverse_append, List.reverse_reverse, List.append_assoc, ← hrest, ← c.unread_eq]
        rfl
      · rw [hrest]
        exact List.dropWhile_cons_of_neg (by simp [ht])

/-- As many steps back as reads lead beside the place where the reads began. -/
theorem beside_reads (k : Nat) (hc : c.IsPlace) : Beside (back^[k] (c.reads k).2) c := by
  induction k generalizing c with
  | zero => exact .self c
  | succ k ih =>
      rw [Function.iterate_succ_apply']
      show Beside (Cursor.back (back^[k] (c.next.2.reads k).2)) c
      exact (ih hc.next.1).back.trans (beside_next hc)

/-! ## Places by their index -/

/-- The place at an index of a text; behind all tokens, the end was read. -/
def ofIndex (tokens : List Located) (i : Nat) : Cursor where
  read    := (tokens.take i).reverse
  unread  := tokens.drop i
  overrun := i - tokens.length

/-- How many tokens were read, and reads of the end. -/
def index (c : Cursor) : Nat := c.read.length + c.overrun

/-- Every index is a place, also one behind the last token. -/
theorem isPlace_ofIndex (tokens : List Located) (i : Nat) : (ofIndex tokens i).IsPlace := by
  by_cases hi : i ≤ tokens.length
  · exact .inl (Nat.sub_eq_zero_of_le hi)
  · exact .inr (List.drop_eq_nil_of_le (by omega))

/-- A place in some tokens has those tokens. -/
theorem tokens_ofIndex (tokens : List Located) (i : Nat) : (ofIndex tokens i).tokens = tokens := by
  simp [ofIndex, Cursor.tokens]

/-- The place of an index is at that index. -/
theorem index_ofIndex (tokens : List Located) (i : Nat) : (ofIndex tokens i).index = i := by
  show (tokens.take i).reverse.length + (i - tokens.length) = i
  rw [List.length_reverse, List.length_take]
  omega

/-- A place between tokens, or behind all of them, is where its index is. -/
theorem eq_ofIndex (hc : c.IsPlace) : c = ofIndex c.tokens c.index := by
  refine eq_of_read (tokens_ofIndex _ _).symm ?_ ?_
  · show c.read = ((c.read.reverse ++ c.unread).take (c.read.length + c.overrun)).reverse
    rcases hc with hover | hunread
    · rw [hover, Nat.add_zero, List.take_left' (by simp), List.reverse_reverse]
    · rw [hunread, List.append_nil, List.take_of_length_le (by simp), List.reverse_reverse]
  · show c.overrun = c.read.length + c.overrun - (c.read.reverse ++ c.unread).length
    rw [List.length_append, List.length_reverse]
    rcases hc with hover | hunread
    · omega
    · rw [hunread, List.length_nil]
      omega

/-- Stepping back leads to a place of the same text, in front of where it began if that is not
    the start of the text. -/
theorem back_ofIndex (tokens : List Located) (i : Nat) :
    ∃ j ≤ i - 1, (ofIndex tokens i).back = ofIndex tokens j := by
  have hplace : (ofIndex tokens i).back.IsPlace := by
    cases hover : (ofIndex tokens i).overrun with
    | zero =>
        rw [back_of_overrun_zero hover]
        exact .inl (backFrom_eq _ _).2.2
    | succ n =>
        rw [back_of_overrun_succ hover]
        have hlt : tokens.length < i := Nat.lt_of_sub_eq_succ hover
        exact .inr (List.drop_eq_nil_of_le hlt.le)
  refine ⟨(ofIndex tokens i).back.index, ?_, ?_⟩
  · have hindex := index_ofIndex tokens i
    rw [index] at hindex ⊢
    cases hover : (ofIndex tokens i).overrun with
    | zero =>
        -- the blanks in front are passed over, so more than one token may be pushed back
        have hle := (List.dropWhile_sublist Located.isWhitespace
          (l := (ofIndex tokens i).read)).length_le
        rw [back_of_overrun_zero hover, (backFrom_eq _ _).2.1, (backFrom_eq _ _).2.2,
          List.length_tail]
        omega
    | succ n =>
        rw [back_of_overrun_succ hover]
        show (ofIndex tokens i).read.length + n ≤ i - 1
        omega
  · have htokens : (ofIndex tokens i).back.tokens = tokens := by
      rw [tokens_back, tokens_ofIndex]
    exact (eq_ofIndex hplace).trans (congrArg (ofIndex · _) htokens)

/-! ## Main result -/

/-- What a cursor can be asked for. -/
inductive Request where
  | peek
  | peekNth (n : Nat)
  | next

/-- What a cursor answers to requests, one after the other. -/
def answers : List Request → Cursor → List Located
  | [], _ => []
  | .peek :: requests, c => c.peek :: answers requests c
  | .peekNth n :: requests, c => c.peekNth n :: answers requests c
  | .next :: requests, c => c.next.1 :: answers requests c.next.2

/-- The answers depend on the tokens that are seen and on nothing else. -/
theorem answers_congr (requests : List Request) (h : c.ahead = d.ahead) :
    answers requests c = answers requests d := by
  induction requests generalizing c d with
  | nil => rfl
  | cons request requests ih =>
      cases request with
      | peek =>
          show c.peek :: _ = d.peek :: _
          rw [peek, peek, peekNth_eq, peekNth_eq, h, ih h]
      | peekNth n =>
          show c.peekNth n :: _ = d.peekNth n :: _
          rw [peekNth_eq, peekNth_eq, h, ih h]
      | next =>
          have hnext : c.next.2.ahead = d.next.2.ahead := by rw [ahead_next, ahead_next, h]
          show c.next.1 :: answers requests c.next.2 = d.next.1 :: answers requests d.next.2
          rw [next_fst_eq, next_fst_eq, h, ih hnext]

/-- At every index of a text, behind its end as well, every way of asking for a token gives the
    same one: the token that stands there once the blanks are left out, or the end.  As many
    steps back as reads undo the reads, as far as can be told by asking; and no step back leads
    out of the text. -/
theorem lookahead_and_reads (tokens : List Located) (i : Nat) :
    let c := ofIndex tokens i
    let left := (tokens.drop i).filter fun t => !t.isWhitespace
    (∀ n, (c.reads n).2.next.1 = left.getD n .eof ∧ c.peekNth n = left.getD n .eof ∧
      (c.peekTokens (n + 1)).getLast? = some (left.getD n .eof).token ∧
      c.peekTokens n = (c.reads n).1.map Located.token) ∧
    (∀ k requests, answers requests (back^[k] (c.reads k).2) = answers requests c) ∧
    ∃ j ≤ i - 1, c.back = ofIndex tokens j := by
  intro c left
  refine ⟨fun n => ⟨?_, c.peekNth_eq n, ?_, c.peekTokens_eq_reads n⟩, fun k requests => ?_,
    back_ofIndex tokens i⟩
  · rw [next_fst_eq, (reads_eq n c).2]
    show (left.drop n).headD .eof = left.getD n .eof
    rw [List.headD_eq_head?_getD, List.head?_drop, List.getD_eq_getElem?_getD]
  · rw [peekTokens_eq, List.range_succ, List.map_append, List.map_singleton,
      List.getLast?_concat, peekNth_eq]
    rfl
  -- the index is not restored, but what is ahead is, and the answers depend on nothing else
  · exact answers_congr requests (beside_reads k (isPlace_ofIndex tokens i)).ahead

/-- The end is read twice behind a token with blanks around it, and all three reads are
    undone. -/
example :
    let blank : Located := ⟨.whitespace .space, ⟨1, 1⟩⟩
    let comma : Located := ⟨.comma, ⟨1, 2⟩⟩
    let c := ofTokens [blank, comma, blank]
    (c.reads 3).1 = [comma, .eof, .eof] ∧
      back^[3] (c.reads 3).2 = ⟨[blank], [comma, blank], 0⟩ := by
  decide

end Cursor

end SchemaSql
