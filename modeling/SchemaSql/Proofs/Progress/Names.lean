import SchemaSql.Proofs.Locality.Captures
import SchemaSql.Proofs.Progress

/-! # Progress of the readers for names, literals and types

    All of them advance, since they take a token that is no end or refuse it.  A captured text
    advances too: one that is not empty was written for a token.  An alias may be missing, so
    its reader goes onward only, and so does the reader of what may stand behind a type's name. -/

namespace SchemaSql

open Cursor SchemaSql.Parser

/-! ## Captured text -/

namespace Parser

/-- Skipping tokens leads to a place with no more of them. -/
theorem skip_place {c : Cursor} (hc : c.IsPlace) (n : Nat) :
    (c.skip n).IsPlace ∧ (c.skip n).left ≤ c.left := by
  refine ⟨?_, (List.drop_sublist n c.unread).countP_le⟩
  rcases hc with h | h
  · exact .inl h
  · exact .inr (by simp [skip, h])

/-- Taking tokens blanks and all, up to the end, leads to a place too. -/
theorem nextEofFrom_place (n : Nat) (read unread : List Located) (h : n = 0 ∨ unread = []) :
    (nextEofFrom n read unread).2.IsPlace ∧ (nextEofFrom n read unread).2.left ≤ solids unread := by
  induction unread generalizing read with
  | nil => simp [nextEofFrom, IsPlace, left, solids]
  | cons t unread ih =>
      have h0 : n = 0 := by simpa using h
      have htail : solids unread ≤ solids (t :: unread) := solids_le_cons t unread
      rw [nextEofFrom]
      split
      · exact ⟨.inl h0, htail⟩
      · obtain ⟨hplace, hle⟩ := ih (t :: read) (.inl h0)
        exact ⟨hplace, hle.trans htail⟩

/-- A group has its parentheses. -/
theorem groupText_advances : Advances groupText := by
  intro ctx c hc
  rw [groupText_run]
  obtain ⟨hplace, hle, hlt⟩ := hc.next
  split
  · next ht =>
      have hmove : c.next.2.left < c.left := hlt (by simp [ht])
      split
      · obtain ⟨hskip, hleft⟩ := skip_place hplace _
        exact .ok hskip (hleft.trans hle) fun _ => hleft.trans_lt hmove
      · obtain ⟨heof, hleft⟩ := nextEofFrom_place c.next.2.overrun c.next.2.read _ hplace
        exact .error heof (hleft.trans hle) (.expected (by decide) _)
  · exact .error hc le_rfl (.expected (by decide) _)

/-- Blanks alone are written as no text. -/
theorem ofTokens_of_blank {ts : List Token} (h : ∀ t ∈ ts, t.isWhitespace = true) :
    CapturedText.ofTokens ts = "" := by
  have := CapturedText.ofTokens_blanks ts [] h
  rwa [List.append_nil] at this

/-- A value is not empty, and one that would be is an error. -/
theorem valueText_advances : Advances valueText := by
  intro ctx c hc
  obtain ⟨m, tail, hvalue, -⟩ := valueTokens_front 0 c.unread
  generalize hlength : valueTokens 0 c.unread = value at hvalue
  obtain ⟨hskip, hle⟩ := skip_place hc value.length
  have hrun : valueText ctx c =
      if (CapturedText.ofTokens (value.map Located.token)).isEmpty then
        .error (.expected "a value" (c.skip value.length).peek) (c.skip value.length)
      else .ok (CapturedText.ofTokens (value.map Located.token)) (c.skip value.length) := by
    rw [← hlength]
    show (if _ then _ else _ : Parser String) ctx (c.skip (valueTokens 0 c.unread).length) = _
    split <;> rfl
  rw [hrun]
  split
  · exact .error hskip hle (.expected (by decide) _)
  · next htext =>
      refine .ok hskip hle fun _ => ?_
      -- a captured text that is not empty has a token in it
      have hsolid : 0 < solids value := by
        rw [solids, List.countP_pos_iff]
        by_contra hblank
        push Not at hblank
        refine htext ?_
        rw [ofTokens_of_blank fun t ht => ?_]
        · rfl
        · obtain ⟨l, hl, rfl⟩ := List.mem_map.mp ht
          simpa [Located.isWhitespace] using hblank l hl
      have htail : (c.skip value.length).unread = tail := by
        show c.unread.drop value.length = tail
        rw [hvalue, List.drop_left]
      rw [left, left, htail, hvalue, solids, solids, List.countP_append]
      exact Nat.lt_add_of_pos_left hsolid

end Parser

/-! ## Names -/

namespace Cursor

/-- Taking a token without passing blanks leads to a place. -/
theorem IsPlace.nextRaw {c : Cursor} (hc : c.IsPlace) :
    c.nextRaw.2.IsPlace ∧ c.nextRaw.2.left ≤ c.left := by
  unfold Cursor.nextRaw
  cases hu : c.unread with
  | nil => exact ⟨.inr rfl, by simp [left, hu]⟩
  | cons t rest =>
      have h0 : c.overrun = 0 := by simpa [IsPlace, hu] using hc
      exact ⟨.inl h0, by simpa [left, hu] using solids_le_cons t rest⟩

end Cursor

namespace Ident

/-- The token behind a hyphen is taken as it stands, so it may be a blank. -/
theorem parseHyphenated_forward (name : String) : Forward (·.isSome) (parseHyphenated name) := by
  rw [parseHyphenated_eq]
  refine .get fun ctx c hc => ?_
  have hpart : ∀ t, Onward (afterHyphen name t) := by
    intro t
    unfold afterHyphen
    split
    · exact .pure id
    · exact .expected (by decide)
  have hraw : Onward (do
      afterHyphen name ((← modifyGet Cursor.nextRaw).getD .eof)) := by
    intro ctx c hc
    obtain ⟨hplace, hle⟩ := hc.nextRaw
    exact (hpart _ ctx _ hplace).mono hle nofun
  split
  · exact .ok hc le_rfl nofun
  · next hminus =>
      -- the next token, blank or not, is the hyphen, so no blank stands in front of it
      have hhead : ∃ t w, c.unread = t :: w ∧ t.token = .minus := by
        cases hu : c.unread with
        | nil => simp [peekRaw, hu, Located.eof] at hminus
        | cons t w => exact ⟨t, w, rfl, by simpa [peekRaw, hu] using hminus⟩
      obtain ⟨t, w, hu, ht⟩ := hhead
      have hpeek : c.peek = t := by simp [Cursor.peek, peekNth, nthSolid, hu, Located.isWhitespace,
        Token.isWhitespace, ht]
      exact Forward.next_lands hc hraw fun heof => by simp [hpeek, ht] at heof

/-- The first token of a name is read, with hyphens behind it or without. -/
theorem parse_advances (inFrom : Bool) : Advances (parse inFrom) := by
  rw [parse_eq]
  refine .next (fun t => .read fun ctx => ?_) fun _ => .read fun _ => .expected (by decide)
  cases hyphenStart inFrom ctx t with
  | some name => exact (Forward.iterate parseHyphenated_forward _).behind fun _ => .pure id
  | none =>
      cases ofToken t with
      | some name => exact .pure id
      | none => exact .expected (by decide)

theorem parseList_advances : Advances parseList := .parenthesizedList (parse_advances false)

/-- A token that is no alias is put back, which leads to where the run started. -/
theorem parseAlias_onward (reserved : List Keyword) : Onward (parseAlias reserved) := by
  rw [parseAlias_eq]
  refine (Forward.acceptKeyword _).behind fun afterAs => .next_or_back fun t => ?_
  cases aliasOf reserved afterAs t with
  | some name => exact .inl ⟨.pure id, fun _ => .pure id⟩
  | none =>
      cases afterAs with
      | true => exact .inl ⟨.expected_bind (by decide), fun _ => .expected_bind (by decide)⟩
      | false => exact .inr ⟨_, .pure id, rfl⟩

end Ident

namespace ObjectName

theorem parseIn_eq (inFrom : Bool) : parseIn inFrom = (do
    let first ← Ident.parse inFrom
    let rest ← many (further (accept .period) (Ident.parse inFrom))
    return ⟨first :: rest⟩) := rfl

/-- A part has its period, and without one nothing is read. -/
theorem part_forward (inFrom : Bool) :
    Forward (·.isSome) (further (accept .period) (Ident.parse inFrom)) :=
  .further (.accept (by simp)) (Ident.parse_advances inFrom).onward

theorem parseIn_advances (inFrom : Bool) : Advances (parseIn inFrom) := by
  rw [parseIn_eq]
  exact (Ident.parse_advances inFrom).after fun _ => (Forward.many (part_forward inFrom)).behind
    fun _ => .pure id

theorem parse_advances : Advances parse := parseIn_advances false

end ObjectName

/-! ## Literals and types -/

namespace Literal

theorem parseString_advances : Advances parseString := by
  refine .next (fun t => ?_) fun _ => .expected (by decide)
  split
  · exact .pure id
  · exact .pure id
  · exact .expected (by decide)

theorem parseCount_advances : Advances parseCount := by
  refine .next (fun t => ?_) fun _ => .expected (by decide)
  split
  · split
    · exact .pure id
    · exact .throw trivial
  · exact .expected (by decide)

end Literal

namespace DataType

/-- The words that go on with the name of a type may be missing. -/
theorem parseContinuation_onward (words : List (List Keyword)) :
    Onward (parseContinuation words) := by
  induction words with
  | nil => exact .pure id
  | cons ks words ih =>
      refine (Forward.acceptKeywordsAsWritten ks).behind fun spelling => ?_
      cases spelling with
      | none => exact ih
      | some spelling => exact .pure id

theorem parseName_advances : Advances parseName := by
  refine .next (fun t => ?_) fun _ => .expected (by decide)
  split
  · refine (parseContinuation_onward _).behind fun spelling => ?_
    cases spelling with
    | none => exact .pure id
    | some spelling => exact .pure id
  · exact .expected (by decide)

theorem parseArguments_onward : Onward parseArguments :=
  (Forward.accept (by simp : Token.lparen ≠ .eof)).behind fun _ => .ite
    ((Forward.commaSeparatedWith false valueText_advances).behind fun _ =>
      (Forward.expect (by simp) (by decide)).behind fun _ => .pure id)
    (.pure id)

/-- By induction on the levels of nesting that are left. -/
theorem parseAt_advances (depth : Nat) : Advances (parseAt depth) := by
  induction depth with
  | zero => exact .throw trivial
  | succ depth ih =>
      refine .descend <| parseName_advances.after fun name =>
        (Forward.accept (by simp)).behind fun _ => .ite ?_ ?_
      · exact ih.behind fun _ => (Forward.expect (by simp) (by decide)).behind fun _ =>
          parseArguments_onward.behind fun _ => .pure id
      · exact parseArguments_onward.behind fun _ => .pure id

theorem parse_advances : Advances parse := .remaining parseAt_advances

end DataType

end SchemaSql
