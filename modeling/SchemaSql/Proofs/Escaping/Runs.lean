import SchemaSql.Proofs.Escaping
import Mathlib.Algebra.Order.Floor.Div

/-! # Runs of quotes — what escaping makes of them

    A text is plain characters and runs of quotes in turn.  Escaping pairs off the quotes of a
    run and completes the last pair, except that the quote directly behind a backslash is left
    alone.  So what is written for a run depends on its length and on the character in front of
    it, and on nothing else in the text.

    * `QuoteRun` is a run with the plain characters in front of it, `spell` a text made of runs,
      and `Maximal` says that no run of the text could be longer;
    * every text is made of maximal runs (`exists_maximal`);
    * `escapeFrom_spell` — the runs are rewritten one by one, and the plain characters stay;
    * a run that was rewritten is not rewritten again (`written_settled`), so that escaping
      twice is escaping once. -/

namespace SchemaSql

namespace Text

variable {q p : Char}

/-- Plain characters and the quotes that stand behind them. -/
structure QuoteRun where
  plain  : List Char
  quotes : Nat
  deriving DecidableEq, Repr

/-- How many quotes are written for a run.  The quote behind a backslash is one that the
    backslash escapes, so that only those behind it are paired off. -/
def QuoteRun.written (r : QuoteRun) : Nat :=
  if r.plain.getLast? = some '\\' then 1 + 2 * ((r.quotes - 1) ⌈/⌉ 2) else 2 * (r.quotes ⌈/⌉ 2)

/-- The text of some runs and of the plain characters behind the last of them, with as many
    quotes for each run as `count` says. -/
def spell (q : Char) (count : QuoteRun → Nat) (runs : List QuoteRun) (last : List Char) :
    List Char :=
  runs.flatMap (fun r => r.plain ++ List.replicate (count r) q) ++ last

/-- The runs of a text are as long as they can be: there are no quotes among the plain
    characters, and no two runs without plain characters between them. -/
structure Maximal (q : Char) (runs : List QuoteRun) (last : List Char) : Prop where
  plain  : ∀ r ∈ runs, q ∉ r.plain
  quotes : ∀ r ∈ runs, 0 < r.quotes
  apart  : ∀ r ∈ runs.tail, r.plain ≠ []
  last   : q ∉ last

/-- A text is spelled run by run. -/
theorem spell_cons (count : QuoteRun → Nat) (r : QuoteRun) (runs : List QuoteRun)
    (last : List Char) : spell q count (r :: runs) last =
      r.plain ++ (List.replicate (count r) q ++ spell q count runs last) := by
  simp [spell]

/-! ## One run -/

/-- What stands in front of a text matters only to a quote that it starts with. -/
theorem escapeFrom_congr {cs : List Char} (h : cs.head? ≠ some q) (p p' : Char) :
    escapeFrom q p cs = escapeFrom q p' cs := by
  cases cs with
  | nil => rfl
  | cons c cs =>
      have hc : c ≠ q := by simpa using h
      rw [escapeFrom_single (.inl hc), escapeFrom_single (.inl hc)]

/-- Plain characters are copied, and the last of them stands in front of what follows. -/
theorem escapeFrom_plain {v : List Char} (h : q ∉ v) (p : Char) (cs : List Char) :
    escapeFrom q p (v ++ cs) = v ++ escapeFrom q (v.getLast?.getD p) cs := by
  induction v generalizing p with
  | nil => rfl
  | cons c v ih =>
      obtain ⟨hc, hv⟩ := not_or.mp (mt List.mem_cons.mpr h)
      rw [List.cons_append, escapeFrom_single (.inl (Ne.symm hc)), ih hv, List.getLast?_cons]
      rfl

/-- The quotes of a run are paired off, by two at a time. -/
theorem escapeFrom_quotes (hq : q ≠ '\\') {cs : List Char} (h : cs.head? ≠ some q) (p' : Char) :
    ∀ (n : Nat) (p : Char), p ≠ '\\' → escapeFrom q p (List.replicate n q ++ cs) =
      List.replicate (2 * (n ⌈/⌉ 2)) q ++ escapeFrom q p' cs := by
  intro n
  induction n using Nat.twoStepInduction with
  | zero => exact fun p _ => escapeFrom_congr h p p'
  | one =>
      intro p hp
      show escapeFrom q p (q :: cs) = q :: q :: escapeFrom q p' cs
      rw [escapeFrom_double hp h, escapeFrom_congr h q p']
  | more n ih _ =>
      intro p hp
      have hpairs : 2 * ((n + 2) ⌈/⌉ 2) = 2 * (n ⌈/⌉ 2) + 2 := by
        simp only [Nat.ceilDiv_eq_add_pred_div]
        omega
      show escapeFrom q p (q :: q :: (List.replicate n q ++ cs)) = _
      rw [escapeFrom_pair hp, ih q hq, hpairs, List.replicate_succ, List.replicate_succ]
      rfl

/-- A run, with the plain characters in front of it, is written by its length and by whether a
    backslash stands directly in front of it. -/
theorem escapeFrom_run (hq : q ≠ '\\') {r : QuoteRun} (hplain : q ∉ r.plain)
    (hquotes : 0 < r.quotes) {cs : List Char} (h : cs.head? ≠ some q) (hp : p ≠ '\\')
    (p' : Char) :
    escapeFrom q p (r.plain ++ (List.replicate r.quotes q ++ cs)) =
      r.plain ++ (List.replicate r.written q ++ escapeFrom q p' cs) := by
  rw [escapeFrom_plain hplain, QuoteRun.written]
  congr 1
  -- behind a backslash the first quote is left alone and the others are doubled in pairs
  by_cases hlast : r.plain.getLast? = some '\\'
  · obtain ⟨n, hn⟩ : ∃ n, r.quotes = n + 1 := Nat.exists_eq_succ_of_ne_zero hquotes.ne'
    rw [if_pos hlast, hlast, hn, Nat.add_sub_cancel, List.replicate_succ, Nat.add_comm 1,
      List.replicate_succ]
    show escapeFrom q '\\' (q :: (List.replicate n q ++ cs)) = _
    rw [escapeFrom_single (.inr rfl), escapeFrom_quotes hq h p' n q hq]
    rfl
  · rw [if_neg hlast]
    refine escapeFrom_quotes hq h p' r.quotes _ ?_
    intro hback
    cases hplain' : r.plain.getLast? with
    | none => exact hp (by simpa [hplain'] using hback)
    | some c => exact hlast (by simpa [hplain'] using hback)

/-! ## All runs of a text -/

namespace Maximal

variable {r : QuoteRun} {runs : List QuoteRun} {last : List Char}

/-- Behind its first run a text has the other runs, as long as they were. -/
theorem rest (h : Maximal q (r :: runs) last) : Maximal q runs last where
  plain r' hr' := h.plain r' (List.mem_cons_of_mem r hr')
  quotes r' hr' := h.quotes r' (List.mem_cons_of_mem r hr')
  apart r' hr' := h.apart r' (List.mem_of_mem_tail hr')
  last := h.last

/-- Behind a run that is as long as it can be stands no further quote. -/
theorem head_rest (h : Maximal q (r :: runs) last) (count : QuoteRun → Nat) :
    (spell q count runs last).head? ≠ some q := by
  intro hhead
  cases runs with
  | nil => exact h.last (List.mem_of_mem_head? hhead)
  | cons r' runs =>
      obtain ⟨c, v, hv⟩ := List.exists_cons_of_ne_nil (h.apart r' (by simp))
      have hmem : q ∉ r'.plain := h.plain r' (by simp)
      rw [spell_cons, hv, List.cons_append, List.head?_cons] at hhead
      exact hmem (by rw [hv, Option.some.inj hhead]; exact List.mem_cons_self)

/-- The runs of what is written are as long as they can be, too. -/
theorem map_written (h : Maximal q runs last) :
    Maximal q (runs.map fun r => ⟨r.plain, r.written⟩) last where
  plain := by
    intro r' hr'
    obtain ⟨r, hr, rfl⟩ := List.mem_map.mp hr'
    exact h.plain r hr
  quotes := by
    intro r' hr'
    obtain ⟨r, hr, rfl⟩ := List.mem_map.mp hr'
    have hpos := h.quotes r hr
    show 0 < r.written
    rw [QuoteRun.written]
    simp only [Nat.ceilDiv_eq_add_pred_div]
    split <;> omega
  apart := by
    intro r' hr'
    rw [← List.map_tail] at hr'
    obtain ⟨r, hr, rfl⟩ := List.mem_map.mp hr'
    exact h.apart r hr
  last := h.last

end Maximal

/-- Every text is made of runs that are as long as they can be: a quote in front of a text
    makes its first run longer, or is a run of its own. -/
theorem exists_maximal (q : Char) (cs : List Char) :
    ∃ runs last, Maximal q runs last ∧ cs = spell q QuoteRun.quotes runs last := by
  induction cs with
  | nil => exact ⟨[], [], ⟨by simp, by simp, by simp, by simp⟩, rfl⟩
  | cons c cs ih =>
      obtain ⟨runs, last, hmax, rfl⟩ := ih
      by_cases hc : c = q
      · subst hc
        cases runs with
        | nil => exact ⟨[⟨[], 1⟩], last, ⟨by simp, by simp, by simp, hmax.last⟩, rfl⟩
        | cons r runs =>
            obtain ⟨plain, n⟩ := r
            -- a quote directly in front of a run makes it longer, otherwise it starts a run of its
            -- own
            by_cases hplain : plain = []
            · subst hplain
              refine ⟨⟨[], n + 1⟩ :: runs, last, ⟨?_, ?_, hmax.apart, hmax.last⟩, ?_⟩
              · simpa using hmax.rest.plain
              · simpa using hmax.rest.quotes
              · simp [spell_cons, List.replicate_succ]
            · refine ⟨⟨[], 1⟩ :: ⟨plain, n⟩ :: runs, last, ⟨?_, ?_, ?_, hmax.last⟩, ?_⟩
              · simpa using hmax.plain
              · simpa using hmax.quotes
              · simpa [hplain] using hmax.apart
              · simp [spell_cons]
      · cases runs with
        | nil =>
            refine ⟨[], c :: last, ⟨by simp, by simp, by simp, ?_⟩, rfl⟩
            simpa [Ne.symm hc] using hmax.last
        | cons r runs =>
            refine ⟨⟨c :: r.plain, r.quotes⟩ :: runs, last, ⟨?_, ?_, hmax.apart, hmax.last⟩, ?_⟩
            · simpa [Ne.symm hc] using hmax.plain
            · simpa using hmax.quotes
            · simp [spell_cons]

/-- The runs of a text are rewritten one by one.  The induction is on the runs: what was
    written of one leaves a quote, which is no backslash, in front of the next. -/
theorem escapeFrom_spell (hq : q ≠ '\\') {runs : List QuoteRun} {last : List Char}
    (h : Maximal q runs last) (hp : p ≠ '\\') :
    escapeFrom q p (spell q QuoteRun.quotes runs last) = spell q QuoteRun.written runs last := by
  induction runs generalizing p with
  | nil => exact escapeFrom_of_notMem h.last p
  | cons r runs ih =>
      rw [spell_cons, spell_cons, escapeFrom_run hq (h.plain r (by simp)) (h.quotes r (by simp))
        (h.head_rest QuoteRun.quotes) hp q, ih h.rest hq]

/-- A run that was rewritten is left as it is. -/
theorem written_settled {r : QuoteRun} (h : 0 < r.quotes) :
    QuoteRun.written ⟨r.plain, r.written⟩ = r.written := by
  simp only [QuoteRun.written, Nat.ceilDiv_eq_add_pred_div]
  split <;> omega

theorem toList_escape (q : Char) (s : String) :
    (escape q s).toList = escapeFrom q '\x00' s.toList := by simp [escape]

/-- Escaping keeps the plain characters of a text and rewrites its runs of quotes one by one; a
    text that was escaped is escaped as it stands. -/
theorem escape_runs (hq : q ≠ '\\') (s : String) :
    (∃ runs last, Maximal q runs last ∧ s.toList = spell q QuoteRun.quotes runs last) ∧
    (∀ runs last, Maximal q runs last → s.toList = spell q QuoteRun.quotes runs last →
      (escape q s).toList = spell q QuoteRun.written runs last) ∧
    escape q (escape q s) = escape q s := by
  have hescape : ∀ (s : String) runs last, Maximal q runs last →
      s.toList = spell q QuoteRun.quotes runs last →
      (escape q s).toList = spell q QuoteRun.written runs last := by
    intro s runs last hmax hs
    rw [toList_escape, hs]
    exact escapeFrom_spell hq hmax (by decide)
  obtain ⟨runs, last, hmax, hs⟩ := exists_maximal q s.toList
  refine ⟨⟨runs, last, hmax, hs⟩, hescape s, String.toList_inj.mp ?_⟩
  -- the written runs are the maximal runs of what is written
  have hwritten : (escape q s).toList =
      spell q QuoteRun.quotes (runs.map fun r => ⟨r.plain, r.written⟩) last := by
    rw [hescape s runs last hmax hs]
    simp [spell, List.flatMap_map]
  rw [hescape _ _ _ hmax.map_written hwritten, hescape s runs last hmax hs, spell, spell,
    List.flatMap_map]
  congr 1
  refine List.flatMap_congr fun r hr => ?_
  rw [written_settled (hmax.quotes r hr)]

/-- Of three quotes two pairs are made, and one pair and the escaped quote if a backslash stands
    in front of them. -/
theorem escape_runs_three :
    let runs : List QuoteRun := [⟨['a'], 3⟩, ⟨['b', '\\'], 3⟩]
    '\'' ≠ '\\' ∧ Maximal '\'' runs ['c'] ∧
      "a'''b\\'''c".toList = spell '\'' QuoteRun.quotes runs ['c'] ∧
      (escape '\'' "a'''b\\'''c").toList = "a''''b\\'''c".toList ∧
      escape '\'' (escape '\'' "a'''b\\'''c") = escape '\'' "a'''b\\'''c" := by
  intro runs
  have hmax : Maximal '\'' runs ['c'] := ⟨by decide, by decide, by decide, by decide⟩
  have hs : "a'''b\\'''c".toList = spell '\'' QuoteRun.quotes runs ['c'] := by decide
  obtain ⟨-, hwritten, htwice⟩ := escape_runs (q := '\'') (by decide) "a'''b\\'''c"
  refine ⟨by decide, hmax, hs, ?_, htwice⟩
  rw [hwritten runs ['c'] hmax hs]
  decide

end Text

end SchemaSql
