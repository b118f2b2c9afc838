import Mathlib.Data.String.Basic
import SchemaSql.Token

/-! # Keywords — halving the table finds what a scan of it finds

    A table in strict order of names is searched by halving without missing an entry, and
    what is found has the name that was looked up, so the search agrees with a scan from the
    first entry.  The table of keywords is in order and holds every keyword: a key finds the
    keyword that it is the name of, and the bare word with a keyword's name has this keyword. -/

namespace SchemaSql

namespace Sorted

variable {α : Type} {table : Array α} {name : α → String}

/-- The names of a table come in strict order. -/
def Ordered (table : Array α) (name : α → String) : Prop :=
  ∀ (i j : Nat) (a b : α), i < j → table[i]? = some a → table[j]? = some b → name a < name b

/-- An entry is found between any two positions around it. -/
theorem findBetween_eq (h : Ordered table name) {i : Nat} {entry : α}
    (hi : table[i]? = some entry) {lo hi' : Nat} (hlo : lo ≤ i) (hhi : i < hi')
    (hsize : hi' ≤ table.size) : findBetween table name (name entry) lo hi' = some entry := by
  induction hn : hi' - lo using Nat.strong_induction_on generalizing lo hi' with
  | _ n ih =>
      subst hn
      have hlt : lo < hi' := by omega
      have hmid : (lo + hi') / 2 < table.size := by omega
      obtain ⟨middle, hget⟩ : ∃ middle, table[(lo + hi') / 2]? = some middle :=
        ⟨_, Array.getElem?_eq_getElem hmid⟩
      rw [findBetween, if_pos hlt, hget]
      dsimp only
      -- the order of the table decides on which side of the middle the entry is
      rcases Nat.lt_trichotomy ((lo + hi') / 2) i with hcase | hcase | hcase
      · -- the entry stands behind the middle, and so does its name
        have hname : name middle < name entry := h _ _ _ _ hcase hget hi
        rw [if_neg hname.ne, if_pos hname]
        exact ih _ (by omega) (by omega) hhi hsize rfl
      · rw [hcase, hi] at hget
        rw [if_pos (congrArg name (Option.some.inj hget).symm), Option.some.inj hget]
      · have hname : name entry < name middle := h _ _ _ _ hcase hi hget
        rw [if_neg hname.ne', if_neg hname.asymm]
        exact ih _ (by omega) hlo (by omega) (by omega) rfl

/-- The search finds every entry of the table under its name. -/
theorem find?_eq (h : Ordered table name) {entry : α} (hmem : entry ∈ table) :
    find? table name (name entry) = some entry := by
  obtain ⟨i, hlt, rfl⟩ := Array.mem_iff_getElem.mp hmem
  exact findBetween_eq h (Array.getElem?_eq_getElem hlt) (Nat.zero_le i) hlt le_rfl

/-- What is found is an entry of the table and has the name; no order is needed for that. -/
theorem of_findBetween {key : String} {lo hi : Nat} {entry : α}
    (h : findBetween table name key lo hi = some entry) : entry ∈ table ∧ name entry = key := by
  fun_induction findBetween table name key lo hi with
  | case1 lo hi hlt hget => exact nomatch h
  | case2 lo hi hlt middle hget hname =>
      obtain rfl := Option.some.inj h
      exact ⟨Array.mem_of_getElem? hget, hname⟩
  | case3 lo hi hlt middle hget hne hless ih => exact ih h
  | case4 lo hi hlt middle hget hne hless ih => exact ih h
  | case5 => exact nomatch h

/-- Halving a table in order finds what a scan from its first entry finds. -/
theorem find?_eq_scan (h : Ordered table name) (key : String) :
    find? table name key = table.find? (name · = key) := by
  cases hscan : table.find? (name · = key) with
  | some entry =>
      have hname : name entry = key := by simpa using Array.find?_some hscan
      rw [← hname]
      exact find?_eq h (Array.mem_of_find?_eq_some hscan)
  | none =>
      rw [Option.eq_none_iff_forall_ne_some]
      intro entry hfound
      obtain ⟨hmem, hname⟩ := of_findBetween hfound
      exact absurd hname (by simpa using Array.find?_eq_none.mp hscan entry hmem)

end Sorted

namespace Keyword

/-- The table has all keywords. -/
theorem mem_ordered (k : Keyword) : k ∈ ordered := by cases k <;> decide

/-- The table is in order, which its search relies on. -/
theorem ordered_ordered : Sorted.Ordered ordered.toArray name := by
  have hchain : (ordered.map name).IsChain (· < ·) := by decide +kernel
  have hpair : (ordered.map name).Pairwise (· < ·) := List.isChain_iff_pairwise.mp hchain
  intro i j a b hij ha hb
  rw [List.getElem?_toArray] at ha hb
  rw [List.pairwise_map] at hpair
  obtain ⟨hi, rfl⟩ := List.getElem?_eq_some_iff.mp ha
  obtain ⟨hj, rfl⟩ := List.getElem?_eq_some_iff.mp hb
  exact List.pairwise_iff_getElem.mp hpair i j hi hj hij

/-- A keyword is found under its own name. -/
theorem find?_name (k : Keyword) : find? k.name = some k :=
  Sorted.find?_eq ordered_ordered (by simpa using k.mem_ordered)

/-- A keyword is found under its name and under no other. -/
theorem find?_eq_some_iff {key : String} {k : Keyword} : find? key = some k ↔ key = k.name := by
  constructor
  · intro h
    exact (Sorted.of_findBetween h).2.symm
  · rintro rfl
    exact k.find?_name

/-- The search in the middle of the table finds what a scan from its start finds. -/
theorem find?_eq_scan (key : String) : find? key = ordered.find? (·.name = key) := by
  rw [find?, Sorted.find?_eq_scan ordered_ordered, List.find?_toArray]

/-- The names of keywords are in capitals. -/
theorem upper_name (k : Keyword) : Unicode.upper k.name = k.name := by
  have h : ∀ k ∈ ordered, Unicode.upper k.name = k.name := by decide +kernel
  exact h k k.mem_ordered

end Keyword

/-- The bare word with the name of a keyword has this keyword. -/
theorem Word.keyword_of_name (k : Keyword) : (Word.of k.name none).keyword = some k := by
  simp [Word.of, k.upper_name, k.find?_name]

end SchemaSql
