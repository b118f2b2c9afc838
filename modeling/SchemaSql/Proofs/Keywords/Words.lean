import SchemaSql.Proofs.Spelling.Literals
import SchemaSql.Proofs.Spelling.Scanned

/-! # Words — which spellings are keywords

    A bare word is a keyword when its capitals are the keyword's name, and a word between
    quotes never is one:

    * `Word.keyword_bare` and `Word.keyword_quoted` say so for the word that is made of a
      spelling, and `Token.keyword_of_mem` for every word of a text;
    * `Token.lex_name` — the name of a keyword, printed alone, is read back as one word with
      this keyword;
    * `Word.keyword_lookup` puts them beside the scan that the search stands for. -/

namespace SchemaSql

open Unicode (upper)

namespace Word

/-- A word without quotes has the keyword that it is in capitals. -/
theorem keyword_bare {v : String} {k : Keyword} :
    (Word.of v none).keyword = some k ↔ upper v = k.name :=
  Keyword.find?_eq_some_iff

theorem keyword_bare_none {v : String} :
    (Word.of v none).keyword = none ↔ ∀ k : Keyword, upper v ≠ k.name := by
  simp only [Option.eq_none_iff_forall_ne_some, ne_eq, keyword_bare]

/-- A word in quotes has no keyword. -/
theorem keyword_quoted (v : String) (q : Char) : (Word.of v (some q)).keyword = none := rfl

end Word

namespace Token

variable {d : Dialect} {u : Bool}

/-- A word of a text is a keyword exactly if it stands there without quotes and its capitals
    are the keyword's name. -/
theorem keyword_of_mem {text : String} {tokens : List Located} (h : lex d u text = .ok tokens)
    {l : Located} (hl : l ∈ tokens) {w : Word} (hw : l.token = .word w) (k : Keyword) :
    w.keyword = some k ↔ w.quote = none ∧ upper w.value = k.name := by
  have hproper : w = Word.of w.value w.quote := (scanned_of_mem h hl).proper w hw
  cases hquote : w.quote with
  | none =>
      rw [hquote] at hproper
      rw [hproper, Word.keyword_bare]
      simp [Word.of]
  | some q =>
      rw [hquote] at hproper
      rw [hproper, Word.keyword_quoted]
      simp

/-- The name of a keyword is read back as one word with this keyword. -/
theorem lex_name [d.Regular] (k : Keyword) :
    lex d u k.name = .ok [⟨.word ⟨k.name, none, some k⟩, .start⟩] := by
  have hword : Word.of k.name none = ⟨k.name, none, some k⟩ := by
    rw [← Word.keyword_of_name k]
    rfl
  rw [← hword]
  exact (Spelled.bareWord (.keyword k)).lex_alone

end Token

/-- The search for the keyword of a word finds what a scan of all keywords finds.  A bare word
    has the keyword whose name its capitals are, and none if they are the name of no keyword; a
    word in quotes has none.  So the printed name of a keyword is read back as this keyword. -/
theorem Word.keyword_lookup {d : Dialect} (hd : d ∈ Dialect.builtin) (u : Bool) :
    (∀ v, (Word.of v none).keyword = Keyword.ordered.find? (·.name = upper v)) ∧
    (∀ v (k : Keyword), (Word.of v none).keyword = some k ↔ upper v = k.name) ∧
    (∀ v, (Word.of v none).keyword = none ↔ ∀ k : Keyword, upper v ≠ k.name) ∧
    (∀ v q, (Word.of v (some q)).keyword = none) ∧
    ∀ k : Keyword, k ∈ Keyword.ordered ∧ (Word.of k.name none).keyword = some k ∧
      Token.lex d u (Word.of k.name none).text =
        .ok [⟨.word ⟨k.name, none, some k⟩, .start⟩] := by
  have := Dialect.regular_of_builtin hd
  refine ⟨fun v => ?_, fun v k => keyword_bare, fun v => keyword_bare_none, keyword_quoted,
    fun k => ⟨k.mem_ordered, keyword_of_name k, Token.lex_name k⟩⟩
  exact Keyword.find?_eq_scan (upper v)

/-- A long `ſ` is an `S` in capitals, a further letter makes another word, and an underscore
    comes behind every letter: `KEYS` stands in front of `KEY_BLOCK_SIZE`. -/
theorem Word.keyword_lookup_longS :
    Dialect.bigquery ∈ Dialect.builtin ∧
      (Word.of "ſelect" none).keyword = some .select ∧
      (Word.of "selects" none).keyword = none ∧
      (Word.of "select" (some '\x60')).keyword = none ∧
      Token.lex .bigquery true "KEY_BLOCK_SIZE" =
        .ok [⟨.word ⟨"KEY_BLOCK_SIZE", none, some .keyBlockSize⟩, .start⟩] := by
  have hd : Dialect.bigquery ∈ Dialect.builtin := by simp [Dialect.builtin]
  obtain ⟨-, hbare, hnone, hquoted, hname⟩ := keyword_lookup hd true
  have hselects : ∀ k ∈ Keyword.ordered, upper "selects" ≠ k.name := by decide +kernel
  exact ⟨hd, (hbare "ſelect" .select).mpr (by decide +kernel),
    (hnone "selects").mpr fun k => hselects k k.mem_ordered, hquoted "select" '\x60',
    (hname .keyBlockSize).2.2⟩

end SchemaSql
