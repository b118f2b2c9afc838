import SchemaSql.Constraint
import SchemaSql.Explain
import Mathlib.Tactic

/-! # Keyed lists — what a sequence of entries leaves behind

    An entry that is put into a keyed list takes the place of an earlier one with its key, or
    stands behind all others.  This file says what one entry does (`map_key_upsert` to the keys,
    `find?_upsert` to what is found under them) and what a sequence of entries comes to
    (`upsertAll_nil`): each key stands where it was used first, with the entry that was put last.

    A list without repeated keys is known by its keys and by what is found under them
    (`filterMap_find?`), so the two facts about one entry are all that is needed. -/

namespace SchemaSql

namespace Keyed

variable {α κ : Type} [DecidableEq κ] {key : α → κ} (entry : α) {entries : List α}

/-! ## One entry -/

/-- Putting an entry in adds no other. -/
theorem mem_of_mem_upsert {entry a : α} (h : a ∈ upsert key entry entries) :
    a = entry ∨ a ∈ entries := by
  induction entries with
  | nil => simpa [upsert] using h
  | cons first rest ih =>
      rw [upsert] at h
      split at h
      · exact (List.mem_cons.mp h).imp_right (List.mem_cons_of_mem first)
      · rcases List.mem_cons.mp h with rfl | h
        · exact .inr List.mem_cons_self
        · exact (ih h).imp_right (List.mem_cons_of_mem first)

/-- An entry with a new key is put at the end. -/
theorem upsert_new {entry : α} (h : key entry ∉ entries.map key) :
    upsert key entry entries = entries ++ [entry] := by
  induction entries with
  | nil => rfl
  | cons first rest ih =>
      rw [List.map_cons, List.mem_cons, not_or] at h
      rw [upsert, if_neg (Ne.symm h.1), ih h.2, List.cons_append]

/-- The keys stay where they are, and a new one stands behind all. -/
theorem map_key_upsert : (upsert key entry entries).map key =
    if key entry ∈ entries.map key then entries.map key else entries.map key ++ [key entry] := by
  by_cases hnew : key entry ∈ entries.map key
  · rw [if_pos hnew]
    induction entries with
    | nil => exact nomatch hnew
    | cons first rest ih =>
        rw [upsert]
        by_cases hfirst : key first = key entry
        · rw [if_pos hfirst, List.map_cons, List.map_cons, hfirst]
        · have hrest := (List.mem_cons.mp hnew).resolve_left (Ne.symm hfirst)
          rw [if_neg hfirst, List.map_cons, List.map_cons, ih hrest]
  · rw [if_neg hnew, upsert_new hnew, List.map_append, List.map_singleton]

/-- An entry that is put in the place of an earlier one, or behind all, repeats no key. -/
theorem nodup_upsert (h : (entries.map key).Nodup) :
    ((upsert key entry entries).map key).Nodup := by
  rw [map_key_upsert]
  split
  · exact h
  · next hnew => exact List.nodup_append.mpr ⟨h, List.nodup_singleton _, by simpa using hnew⟩

/-- Under its key the entry is found, and under other keys what was found before. -/
theorem find?_upsert (k : κ) : find? key k (upsert key entry entries) =
    if key entry = k then some entry else find? key k entries := by
  induction entries with
  | nil => simp [upsert, find?]
  | cons first rest ih =>
      rw [find?] at ih ⊢
      by_cases hfirst : key first = key entry
      · rw [upsert, if_pos hfirst]
        by_cases hk : key entry = k
        · simp [hk]
        · simp [find?, hfirst, hk]
      · rw [upsert, if_neg hfirst]
        by_cases hk : key first = k
        · have hne : key entry ≠ k := fun h => hfirst (hk.trans h.symm)
          simp [find?, hk, hne]
        · simpa [find?, hk] using ih

/-- An entry is found for the keys that the entries have. -/
theorem isSome_find? {k : κ} : (find? key k entries).isSome ↔ k ∈ entries.map key := by
  simp [find?, List.find?_isSome]

/-- Entries of different keys are those that are found under the keys. -/
theorem filterMap_find? (h : (entries.map key).Nodup) :
    (entries.map key).filterMap (find? key · entries) = entries := by
  induction entries with
  | nil => rfl
  | cons first rest ih =>
      obtain ⟨hfirst, hrest⟩ := List.nodup_cons.mp h
      have hhead : find? key (key first) (first :: rest) = some first := by simp [find?]
      have htail : ∀ k ∈ rest.map key, find? key k (first :: rest) = find? key k rest := by
        intro k hk
        have hne : key first ≠ k := fun heq => hfirst (heq ▸ hk)
        simp [find?, hne]
      rw [List.map_cons, List.filterMap_cons, hhead]
      show first :: _ = first :: rest
      rw [List.filterMap_congr htail, ih hrest]

/-! ## A sequence of entries -/

/-- Entries that are put into a list one after the other. -/
def upsertAll (key : α → κ) (entries kept : List α) : List α :=
  entries.foldl (fun kept entry => upsert key entry kept) kept

/-- One entry for each key that is used, in the order in which the keys are used first, and of
    the entries with that key the last one. -/
def settled (key : α → κ) (entries : List α) : List α :=
  (entries.map key).eraseDups.filterMap fun k => find? key k entries.reverse

/-- Entries are put in from the front, so the last one is put in last. -/
theorem upsertAll_concat (entries kept : List α) :
    upsertAll key (entries ++ [entry]) kept = upsert key entry (upsertAll key entries kept) :=
  List.foldl_concat ..

/-- A key at the end is kept if it has not occurred in front. -/
theorem eraseDups_concat (keys : List κ) (k : κ) :
    (keys ++ [k]).eraseDups = if k ∈ keys then keys.eraseDups else keys.eraseDups ++ [k] := by
  rw [List.eraseDups_append]
  by_cases hk : k ∈ keys
  · simp [List.removeAll, hk]
  · simp [List.removeAll, hk, List.eraseDups_cons]

/-- Keys are kept in the order in which they are used first. -/
theorem map_key_upsertAll (entries : List α) :
    (upsertAll key entries []).map key =
      (entries.map key).eraseDups := by
  induction entries using List.reverseRecOn with
  | nil => rfl
  | append_singleton entries entry ih =>
      rw [upsertAll_concat, map_key_upsert, ih, List.map_append, List.map_singleton,
        eraseDups_concat]
      simp only [List.mem_eraseDups]

/-- However many entries are put in, each key has one. -/
theorem nodup_upsertAll (entries : List α) :
    ((upsertAll key entries []).map key).Nodup := by
  induction entries using List.reverseRecOn with
  | nil => exact List.nodup_nil
  | append_singleton entries entry ih =>
      rw [upsertAll_concat]
      exact nodup_upsert entry ih

/-- Under each key the entry is found that was put last. -/
theorem find?_upsertAll (k : κ) (entries : List α) :
    find? key k (upsertAll key entries []) =
      find? key k entries.reverse := by
  induction entries using List.reverseRecOn with
  | nil => rfl
  | append_singleton entries entry ih =>
      rw [upsertAll_concat, find?_upsert, ih, List.reverse_concat]
      by_cases hk : key entry = k
      · simp [find?, hk]
      · simp [find?, hk]

/-- Entries that are put one after the other into an empty list settle there. -/
theorem upsertAll_nil (entries : List α) :
    upsertAll key entries [] = settled key entries := by
  rw [settled, ← map_key_upsertAll]
  simp only [← find?_upsertAll]
  exact (filterMap_find? (nodup_upsertAll entries)).symm

/-- Either no key is used again, or there is a first entry whose key was used before. -/
theorem nodup_or_repeat (key : α → κ) (entries : List α) : (entries.map key).Nodup ∨
    ∃ before entry after, entries = before ++ entry :: after ∧ (before.map key).Nodup ∧
      key entry ∈ before.map key := by
  induction entries using List.reverseRecOn with
  | nil => exact .inl List.nodup_nil
  | append_singleton entries entry ih =>
      rcases ih with hnodup | ⟨before, first, after, rfl, hnodup, hmem⟩
      · by_cases hmem : key entry ∈ entries.map key
        · exact .inr ⟨entries, entry, [], rfl, hnodup, hmem⟩
        · rw [List.map_append, List.map_singleton, List.nodup_append]
          exact .inl ⟨hnodup, List.nodup_singleton _, by simpa using hmem⟩
      · exact .inr ⟨before, first, after ++ [entry], by simp, hnodup, hmem⟩

/-- A key that is used again keeps its place, and its last entry counts. -/
example : settled Prod.fst [(1, 10), (2, 20), (1, 30)] = [(1, 30), (2, 20)] := by decide

end Keyed

/-! ## Settings and rules -/

/-- Adding options one by one puts all of them into the list of options. -/
theorem Explain.foldl_addOption_eq (options : List ExplainOption) (e : Explain) :
    options.foldl addOption e =
      { e with options := Keyed.upsertAll ExplainOption.kind options e.options } := by
  induction options generalizing e with
  | nil => rfl
  | cons o options ih => exact ih (e.addOption o)

/-- Settings that are added to none settle among the options. -/
theorem Explain.foldl_addOption_settled {e : Explain} (h : e.options = [])
    (options : List ExplainOption) :
    options.foldl addOption e = { e with options := Keyed.settled ExplainOption.kind options } := by
  rw [foldl_addOption_eq, h, Keyed.upsertAll_nil]

/-- Setting actions one by one puts all of them into the list of rules. -/
theorem ForeignKey.foldl_setAction_eq (rules : List ReferentialRule) (fk : ForeignKey) :
    rules.foldl (fun fk rule => fk.setAction rule.event rule.action) fk =
      { fk with rules := Keyed.upsertAll ReferentialRule.event rules fk.rules } := by
  induction rules generalizing fk with
  | nil => rfl
  | cons rule rules ih => exact ih (fk.setAction rule.event rule.action)

/-- Rules that are set where there are none settle among the rules. -/
theorem ForeignKey.foldl_setAction_settled {fk : ForeignKey} (h : fk.rules = [])
    (rules : List ReferentialRule) :
    rules.foldl (fun fk rule => fk.setAction rule.event rule.action) fk =
      { fk with rules := Keyed.settled ReferentialRule.event rules } := by
  rw [foldl_setAction_eq, h, Keyed.upsertAll_nil]

end SchemaSql
