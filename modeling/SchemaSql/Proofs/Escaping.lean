import SchemaSql.Text.Escape
import Mathlib.Data.List.Infix
import Mathlib.Tactic

/-! # Escaping — what becomes of the quotes of a text

    Between two quotes a quote is written twice, unless the text has it twice already or a
    backslash in front of it.  So escaping is not the doubling of every quote:

    * `escapeFrom_cases` is one step of it, and `escapeFrom_induction` the induction over its
      steps;
    * `escapeFrom_eq_doubled` says for which texts escaping does double every quote;
    * `trailing` counts the backslashes that a text ends with, which tell whether the quote
      behind them is escaped. -/

namespace SchemaSql

namespace Text

variable {q p : Char} {v : List Char}

/-- A character that is no quote, or stands behind a backslash, is written once. -/
theorem escapeFrom_single {c : Char} (h : c ≠ q ∨ p = '\\') (cs : List Char) :
    escapeFrom q p (c :: cs) = c :: escapeFrom q c cs := by
  have hneg : ¬ (c = q ∧ p ≠ '\\') := by
    rintro ⟨hc, hp⟩
    exact h.elim (fun h => h hc) hp
  cases cs with
  | nil => simp only [escapeFrom, if_neg hneg]
  | cons d cs => rw [escapeFrom, if_neg hneg]

/-- Without a quote there is nothing to escape. -/
theorem escapeFrom_of_notMem (h : q ∉ v) (p : Char) :
    escapeFrom q p v = v := by
  induction v generalizing p with
  | nil => rfl
  | cons c v ih =>
      obtain ⟨hc, hv⟩ := not_or.mp (mt List.mem_cons.mpr h)
      rw [escapeFrom_single (.inl (Ne.symm hc)), ih hv]

/-- Another quote is written twice. -/
theorem escapeFrom_double (hp : p ≠ '\\') {cs : List Char} (h : cs.head? ≠ some q) :
    escapeFrom q p (q :: cs) = q :: q :: escapeFrom q q cs := by
  cases cs with
  | nil => simp [escapeFrom, hp]
  | cons d cs =>
      have hd : d ≠ q := by simpa using h
      rw [escapeFrom, if_pos ⟨rfl, hp⟩, if_neg hd]

/-- Two quotes stay two. -/
theorem escapeFrom_pair (hp : p ≠ '\\') (cs : List Char) :
    escapeFrom q p (q :: q :: cs) = q :: q :: escapeFrom q q cs := by
  rw [escapeFrom, if_pos ⟨rfl, hp⟩, if_pos rfl]

/-- The text with every quote doubled. -/
def doubled (q : Char) (cs : List Char) : List Char :=
  cs.flatMap fun c => if c = q then [q, q] else [c]

/-- Doubling goes from character to character. -/
theorem doubled_cons (q c : Char) (cs : List Char) :
    doubled q (c :: cs) = (if c = q then [q, q] else [c]) ++ doubled q cs := rfl

/-- How escaping goes on behind a character: a quote is written twice if it does not stand
    behind a backslash, together with a second one. -/
theorem escapeFrom_cases (q p c : Char) (cs : List Char) :
    (escapeFrom q p (c :: cs) = c :: escapeFrom q c cs ∧ (c ≠ q ∨ p = '\\')) ∨
    (c = q ∧ p ≠ '\\' ∧ cs.head? ≠ some q ∧
      escapeFrom q p (c :: cs) = q :: q :: escapeFrom q q cs) ∨
    ∃ rest, c = q ∧ p ≠ '\\' ∧ cs = q :: rest ∧
      escapeFrom q p (c :: cs) = q :: q :: escapeFrom q q rest := by
  by_cases hc : c ≠ q ∨ p = '\\'
  · exact .inl ⟨escapeFrom_single hc cs, hc⟩
  · obtain ⟨rfl, hp⟩ : c = q ∧ p ≠ '\\' := by simpa using hc
    by_cases hhead : cs.head? = some c
    · obtain ⟨rest, rfl⟩ := List.head?_eq_some_iff.mp hhead
      exact .inr (.inr ⟨rest, rfl, hp, rfl, escapeFrom_pair hp rest⟩)
    · exact .inr (.inl ⟨rfl, hp, hhead, escapeFrom_double hp hhead⟩)

/-- What holds of no text and is kept by each of these steps holds of escaping. -/
theorem escapeFrom_induction {P : Char → List Char → List Char → Prop} (nil : ∀ p, P p [] [])
    (single : ∀ {p c cs out}, c ≠ q ∨ p = '\\' → P c cs out → P p (c :: cs) (c :: out))
    (double : ∀ {p cs out}, p ≠ '\\' → P q cs out → P p (q :: cs) (q :: q :: out))
    (pair : ∀ {p cs out}, p ≠ '\\' → P q cs out → P p (q :: q :: cs) (q :: q :: out))
    (p : Char) (v : List Char) : P p v (escapeFrom q p v) := by
  induction hn : v.length using Nat.strong_induction_on generalizing p v with
  | _ n ih =>
      subst hn
      cases v with
      | nil => exact nil p
      | cons c cs =>
          rcases escapeFrom_cases q p c cs with
            ⟨heq, hc⟩ | ⟨rfl, hp, -, heq⟩ | ⟨rest, rfl, hp, rfl, heq⟩
          · rw [heq]
            exact single hc (ih cs.length (by simp) c cs rfl)
          · rw [heq]
            exact double hp (ih cs.length (by simp) c cs rfl)
          · rw [heq]
            exact pair hp (ih rest.length (by simp) c rest rfl)

/-- Escaping leaves nothing out. -/
theorem le_length_escapeFrom (q p : Char) (v : List Char) :
    v.length ≤ (escapeFrom q p v).length :=
  escapeFrom_induction (P := fun _ v out => v.length ≤ out.length) (fun _ => le_rfl)
    (fun _ ih => by simpa using ih) (fun _ ih => by simp; omega) (fun _ ih => by simpa using ih)
    p v

/-- Escaping adds no more than doubling every quote does. -/
theorem length_escapeFrom_le (q p : Char) (v : List Char) :
    (escapeFrom q p v).length ≤ (doubled q v).length := by
  refine escapeFrom_induction (P := fun _ v out => out.length ≤ (doubled q v).length)
    (fun _ => le_rfl) (fun _ ih => ?_) (fun _ ih => ?_) (fun _ ih => ?_) p v
  · rw [doubled_cons]
    split <;> simp <;> omega
  · simpa [doubled_cons] using ih
  · simp [doubled_cons]
    omega

/-- No escaped text is a doubled one with something in front of it. -/
theorem escapeFrom_ne {extra : List Char} (h : extra ≠ []) (p : Char) (v : List Char) :
    escapeFrom q p v ≠ extra ++ doubled q v := by
  intro heq
  have hlength := congrArg List.length heq
  have hle := length_escapeFrom_le q p v
  have hpos := List.length_pos_of_ne_nil h
  rw [List.length_append] at hlength
  omega

/-- Escaping adds no backslash and takes none away. -/
theorem count_escapeFrom (hq : q ≠ '\\') (p : Char) (v : List Char) :
    (escapeFrom q p v).count '\\' = v.count '\\' :=
  escapeFrom_induction (P := fun _ v out => out.count '\\' = v.count '\\') (fun _ => rfl)
    (fun _ ih => by simp [List.count_cons, ih]) (fun _ ih => by simp [hq, ih])
    (fun _ ih => by simp [hq, ih]) p v

/-- Two characters stand next to each other at the start of a text or in what is left of it. -/
theorem pair_infix_cons {x y c : Char} {cs : List Char} :
    [x, y] <:+: c :: cs ↔ (x = c ∧ cs.head? = some y) ∨ [x, y] <:+: cs := by
  rw [List.infix_cons_iff, List.cons_prefix_cons]
  cases cs with
  | nil => simp
  | cons d cs => simp [eq_comm (a := y)]

/-- Escaping doubles every quote exactly if it finds none of them doubled, or behind a
    backslash. -/
theorem escapeFrom_eq_doubled : escapeFrom q p v = doubled q v ↔
    ¬ [q, q] <:+: v ∧ ¬ ['\\', q] <:+: p :: v := by
  induction v generalizing p with
  | nil => simp [escapeFrom, doubled, pair_infix_cons]
  | cons c cs ih =>
      rw [pair_infix_cons (c := p), pair_infix_cons (c := c)]
      rcases escapeFrom_cases q p c cs with
        ⟨heq, hc⟩ | ⟨rfl, hp, hhead, heq⟩ | ⟨rest, rfl, hp, rfl, heq⟩
      · rw [heq, doubled_cons]
        by_cases hcq : c = q
        · -- a quote behind a backslash is not doubled
          subst hcq
          obtain rfl : p = '\\' := by simpa using hc
          simpa using escapeFrom_ne (List.cons_ne_nil c []) c cs
        · simp [hcq, Ne.symm hcq, ih]
      · rw [heq, doubled_cons, if_pos rfl]
        simp [ih, hhead, hp.symm]
      · -- two quotes are not doubled again
        rw [heq, doubled_cons, doubled_cons, if_pos rfl]
        simpa using escapeFrom_ne (List.cons_ne_nil c [c]) c rest

/-- How many backslashes a text ends with. -/
def trailing (cs : List Char) : Nat := (cs.reverse.takeWhile (· = '\\')).length

@[simp] theorem trailing_nil : trailing [] = 0 := rfl

/-- A backslash at the end goes on with those in front of it, and any other character ends them. -/
@[simp] theorem trailing_concat (cs : List Char) (c : Char) :
    trailing (cs ++ [c]) = if c = '\\' then trailing cs + 1 else 0 := by
  by_cases hc : c = '\\' <;> simp [trailing, hc]

/-- No backslash stands at the end. -/
theorem trailing_eq_zero {cs : List Char} :
    trailing cs = 0 ↔ cs.getLast?.getD '\x00' ≠ '\\' := by
  rcases List.eq_nil_or_concat cs with rfl | ⟨cs, c, rfl⟩
  · simp
  · simp

end Text

end SchemaSql
