import SchemaSql.Proofs.Climbing.Legal

/-! # What the readers of expressions denote

    The readers for the parts of an expression take a reader for the expressions inside it.
    If that one denotes `sub`, then a reader of operands denotes `Operand sub`, one of
    operators `Operator sub`, and a whole expression is an operand and as many operators as
    bind tighter than the place allows. -/

namespace SchemaSql

open Cursor SchemaSql.Parser Reading

namespace Expr

/-! ## The relations -/

/-- What reads the expressions inside another, by the precedence to stop at. -/
abbrev SubReading := Nat → Reading Expr

/-- How tight the tokens bind to an operand in front of them. -/
def precedenceAt (T : List Token) : Nat := (T.getD 0 .eof).precedence (T.getD 1 .eof)

/-- The tokens do not go on with a path. -/
def EndsPath (T : List Token) : Prop := T.head? ≠ some .period ∧ T.head? ≠ some .lparen

/-- A path that is no call. -/
def ofPath (first : Ident) : List Ident → Expr
  | [] => .ident first
  | rest => .compound (first :: rest)

/-- The arguments of a call, up to the closing parenthesis. -/
def Args (sub : SubReading) : Reading (List Expr) := fun T args K =>
  (T.head? = some .rparen ∧ args = [] ∧ K = T) ∨
    (T.head? ≠ some .rparen ∧ Items (sub 0) T args K)

/-- What follows an identifier. -/
inductive Path (sub : SubReading) (first : Ident) : Reading Expr
  | name (rest : List Ident) {K : List Token} : EndsPath K →
      Path sub first (partTokens rest ++ K) (ofPath first rest) K
  | call (rest : List Ident) {args : List Expr} {T K : List Token} :
      Args sub T args (.rparen :: K) →
      Path sub first (partTokens rest ++ .lparen :: T) (.call ⟨first :: rest⟩ args) K

/-- An operand. -/
inductive Operand (sub : SubReading) : Reading Expr
  | literal {value : Literal} {t : Token} {K : List Token} : t.literal? = some value →
      Operand sub (t :: K) (.literal value) K
  | unary {op : UnaryOp} {t : Token} {operand : Expr} {T K : List Token} :
      t.unaryOp? = some op → sub op.precedence T operand K →
      Operand sub (t :: T) (.unary op operand) K
  | nested {inner : Expr} {T K : List Token} : sub 0 T inner (.rparen :: K) →
      Operand sub (.lparen :: T) (.nested inner) K
  | wildcard {K : List Token} : Operand sub (.mul :: K) .wildcard K
  | path {first : Ident} {e : Expr} {T K : List Token} : ¬ first.Reserved →
      Path sub first T e K → Operand sub (.word first.word :: T) e K

/-- An operator of precedence `p`, and what belongs to it. -/
inductive Operator (sub : SubReading) (left : Expr) (p : Nat) : Reading Expr
  | binary {op : BinaryOp} {right : Expr} {t : Token} {T K : List Token} :
      t.binaryOp? = some op → sub p T right K →
      Operator sub left p (t :: T) (.binary left op right) K
  | isNull {t t' : Token} {K : List Token} : t.keyword? = some .is → t'.keyword? = some .null →
      Operator sub left p (t :: t' :: K) (.isNull left) K
  | isNotNull {t t' t'' : Token} {K : List Token} : t.keyword? = some .is →
      t'.keyword? = some .not → t''.keyword? = some .null →
      Operator sub left p (t :: t' :: t'' :: K) (.isNotNull left) K
  | inList {negated : Bool} {items : List Expr} {t : Token} {N T K : List Token} :
      IsNegation negated N → t.keyword? = some .in → Items (sub 0) T items (.rparen :: K) →
      Operator sub left p (N ++ t :: .lparen :: T) (.inList left items negated) K
  | between {negated : Bool} {low high : Expr} {t a : Token} {N T M K : List Token} :
      IsNegation negated N → t.keyword? = some .between →
      sub Precedence.range T low (a :: M) → a.keyword? = some .and →
      sub Precedence.range M high K →
      Operator sub left p (N ++ t :: T) (.between left negated low high) K

/-- Operators that all bind tighter than `m`, one after the other. -/
inductive Operators (sub : SubReading) (m : Nat) : Expr → Reading Expr
  | nil {e : Expr} {T : List Token} : Operators sub m e T e T
  | cons {left e e' : Expr} {T M K : List Token} : m < precedenceAt T →
      Operator sub left (precedenceAt T) T e M → Operators sub m e M e' K →
      Operators sub m left T e' K

/-- An operand and operators that bind tighter than `m`. -/
def Ascent (sub : SubReading) (m : Nat) : Reading Expr := fun T e K =>
  ∃ operand M, Operand sub T operand M ∧ Operators sub m operand M e K

/-- An ascent that cannot go on: the next operator binds no tighter than `m`. -/
def Climb (sub : SubReading) (m : Nat) : Reading Expr := fun T e K =>
  Ascent sub m T e K ∧ precedenceAt K ≤ m

/-! ### Tokens of operators -/

/-- Of the keywords only `AND` and `OR` are binary operators. -/
theorem binaryOp?_of_keyword {t : Token} {k : Keyword} (h : t.keyword? = some k)
    (hand : k ≠ .and) (hor : k ≠ .or) : t.binaryOp? = none := by
  cases t with
  | word w =>
      have hw : w.keyword = some k := h
      simp only [Token.binaryOp?, hw]
      split <;> simp_all
  | _ => simp [Token.keyword?] at h

/-- `NOT` in front of another keyword is read as the negation of what follows. -/
theorem negation_reads {negated : Bool} {N M : List Token} {t : Token} {k : Keyword}
    (hN : IsNegation negated N) (ht : t.keyword? = some k) (hk : k ≠ .not) :
    Reading.test (·.keyword? = some .not) (fun T b K => b = true ∧ K = T)
      (fun T b K => b = false ∧ K = T) (N ++ t :: M) negated (t :: M) := by
  cases negated with
  | true =>
      obtain ⟨t', rfl, ht'⟩ := hN
      exact .inl ⟨t', t :: M, rfl, ht', rfl, rfl⟩
  | false =>
      obtain rfl : N = [] := hN
      exact .inr ⟨by simpa [ht] using hk, rfl, rfl⟩

/-- `IN` or `BETWEEN` stands in front, or `NOT`. -/
def StartsRange (T : List Token) : Prop :=
  ∃ negated N t M, T = N ++ t :: M ∧ IsNegation negated N ∧
    (t.keyword? = some .in ∨ t.keyword? = some .between)

/-- What starts a range is one of three keywords. -/
theorem StartsRange.head {t : Token} {T : List Token} (h : StartsRange (t :: T)) :
    t.keyword? = some .not ∨ t.keyword? = some .in ∨ t.keyword? = some .between := by
  obtain ⟨negated, N, t', M, heq, hN, ht⟩ := h
  cases negated with
  | true =>
      obtain ⟨n, rfl, hn⟩ := hN
      obtain rfl := (List.cons.inj heq).1
      exact .inl hn
  | false =>
      obtain rfl : N = [] := hN
      obtain rfl := (List.cons.inj heq).1
      exact .inr ht

/-! ### Operators, by the token they start with -/

section

variable {D : SubReading} {left e : Expr} {p : Nat} {t : Token} {T K : List Token}

/-- The first token of an operator tells which kind it is. -/
theorem Operator.starts (h : Operator D left p (t :: T) e K) :
    (∃ op, t.binaryOp? = some op) ∨ t.keyword? = some .is ∨ StartsRange (t :: T) := by
  generalize hT : t :: T = T' at h
  cases h with
  | binary hop =>
      obtain rfl := (List.cons.inj hT).1
      exact .inl ⟨_, hop⟩
  | isNull his =>
      obtain rfl := (List.cons.inj hT).1
      exact .inr (.inl his)
  | isNotNull his =>
      obtain rfl := (List.cons.inj hT).1
      exact .inr (.inl his)
  | inList hN ht => exact .inr (.inr ⟨_, _, _, _, rfl, hN, .inl ht⟩)
  | between hN ht => exact .inr (.inr ⟨_, _, _, _, rfl, hN, .inr ht⟩)

/-- Behind a binary operator stands its right operand. -/
theorem operator_binary {op : BinaryOp} (h : t.binaryOp? = some op) :
    Operator D left p (t :: T) e K ↔ ∃ right, D p T right K ∧ e = .binary left op right := by
  constructor
  · intro ho
    have hrange : ¬ StartsRange (t :: T) := by
      intro hstart
      rcases hstart.head with hk | hk | hk <;>
        simp [binaryOp?_of_keyword hk (by simp) (by simp)] at h
    have his : t.keyword? ≠ some .is := fun hk => by
      simp [binaryOp?_of_keyword hk (by simp) (by simp)] at h
    generalize hT : t :: T = T' at ho hrange
    cases ho with
    | binary hop hright =>
        obtain ⟨rfl, rfl⟩ := List.cons.inj hT
        obtain rfl := Option.some.inj (h.symm.trans hop)
        exact ⟨_, hright, rfl⟩
    | isNull h' => exact absurd ((List.cons.inj hT).1 ▸ h') his
    | isNotNull h' => exact absurd ((List.cons.inj hT).1 ▸ h') his
    | inList hN ht => exact absurd ⟨_, _, _, _, rfl, hN, .inl ht⟩ hrange
    | between hN ht => exact absurd ⟨_, _, _, _, rfl, hN, .inr ht⟩ hrange
  · rintro ⟨right, hright, rfl⟩
    exact .binary h hright

/-- Behind `IS` stands `NULL`, with `NOT` in front of it or without. -/
theorem operator_is (h : t.keyword? = some .is) :
    Operator D left p (t :: T) e K ↔
      (∃ t', T = t' :: K ∧ t'.keyword? = some .null ∧ e = .isNull left) ∨
        ∃ t' t'', T = t' :: t'' :: K ∧ t'.keyword? = some .not ∧ t''.keyword? = some .null ∧
          e = .isNotNull left := by
  constructor
  · intro ho
    -- `IS` is not among the words that start a range
    have hrange : ¬ StartsRange (t :: T) := fun hstart => by
      have hhead := hstart.head
      simp [h] at hhead
    generalize hT : t :: T = T' at ho hrange
    cases ho with
    | binary hop =>
        obtain rfl := (List.cons.inj hT).1
        simp [binaryOp?_of_keyword h (by simp) (by simp)] at hop
    | isNull _ hnull =>
        obtain ⟨rfl, rfl⟩ := List.cons.inj hT
        exact .inl ⟨_, rfl, hnull, rfl⟩
    | isNotNull _ hnot hnull =>
        obtain ⟨rfl, rfl⟩ := List.cons.inj hT
        exact .inr ⟨_, _, rfl, hnot, hnull, rfl⟩
    | inList hN ht => exact absurd ⟨_, _, _, _, rfl, hN, .inl ht⟩ hrange
    | between hN ht => exact absurd ⟨_, _, _, _, rfl, hN, .inr ht⟩ hrange
  · rintro (⟨t', rfl, hnull, rfl⟩ | ⟨t', t'', rfl, hnot, hnull, rfl⟩)
    · exact .isNull h hnull
    · exact .isNotNull h hnot hnull

end

/-! ### Operands, by the token they start with -/

section

variable {D : SubReading} {t : Token} {e : Expr} {T K : List Token}

/-- A name without quotes is the keyword that it is written like. -/
theorem bareKeyword?_word (name : Ident) :
    (Token.word name.word).bareKeyword? = name.word.keyword := by
  obtain ⟨value, _ | q⟩ := name <;> simp [Token.bareKeyword?, Ident.word, Word.of]

/-- The word of a name that is not reserved is neither a literal nor an operator. -/
theorem word_free {name : Ident} (h : ¬ name.Reserved) :
    (Token.word name.word).literal? = none ∧ (Token.word name.word).unaryOp? = none := by
  simp only [Ident.Reserved, List.mem_cons, List.not_mem_nil, or_false, not_or] at h
  obtain ⟨htrue, hfalse, hnull, hnot⟩ := h
  simp only [Token.literal?, Token.unaryOp?, bareKeyword?_word]
  simp [hnot]

theorem unaryOp?_of_literal? {value : Literal} (h : t.literal? = some value) :
    t.unaryOp? = none := by
  cases t with
  | word w =>
      simp only [Token.literal?] at h
      simp only [Token.unaryOp?]
      split at h <;> simp_all
  | _ => simp_all [Token.literal?, Token.unaryOp?, Token.bareKeyword?]

/-- A literal is an operand by itself. -/
theorem operand_literal {value : Literal} (h : t.literal? = some value) :
    Operand D (t :: T) e K ↔ e = .literal value ∧ K = T := by
  constructor
  · intro ho
    cases ho with
    | literal h' => exact ⟨by rw [Option.some.inj (h.symm.trans h')], rfl⟩
    | unary h' => simp [unaryOp?_of_literal? h] at h'
    | nested => simp [Token.literal?, Token.bareKeyword?] at h
    | wildcard => simp [Token.literal?, Token.bareKeyword?] at h
    | path h' => simp [(word_free h').1] at h
  · rintro ⟨rfl, rfl⟩
    exact .literal h

/-- Behind a sign or `NOT` stands an expression that binds tighter. -/
theorem operand_unary {op : UnaryOp} (h : t.unaryOp? = some op) :
    Operand D (t :: T) e K ↔ ∃ x, D op.precedence T x K ∧ e = .unary op x := by
  constructor
  · intro ho
    cases ho with
    | literal h' => simp [unaryOp?_of_literal? h'] at h
    | unary h' hx =>
        obtain rfl := Option.some.inj (h.symm.trans h')
        exact ⟨_, hx, rfl⟩
    | nested => simp [Token.unaryOp?, Token.bareKeyword?] at h
    | wildcard => simp [Token.unaryOp?, Token.bareKeyword?] at h
    | path h' => simp [(word_free h').2] at h
  · rintro ⟨x, hx, rfl⟩
    exact .unary h hx

/-- Between parentheses every expression is an operand. -/
theorem operand_nested : Operand D (.lparen :: T) e K ↔
    ∃ inner, D 0 T inner (.rparen :: K) ∧ e = .nested inner := by
  constructor
  · intro ho
    cases ho with
    | literal h => simp [Token.literal?, Token.bareKeyword?] at h
    | unary h => simp [Token.unaryOp?, Token.bareKeyword?] at h
    | nested h => exact ⟨_, h, rfl⟩
  · rintro ⟨inner, h, rfl⟩
    exact .nested h

theorem operand_wildcard : Operand D (.mul :: T) e K ↔ e = .wildcard ∧ K = T := by
  constructor
  · intro ho
    cases ho with
    | literal h => simp [Token.literal?, Token.bareKeyword?] at h
    | unary h => simp [Token.unaryOp?, Token.bareKeyword?] at h
    | wildcard => exact ⟨rfl, rfl⟩
  · rintro ⟨rfl, rfl⟩
    exact .wildcard

/-- A name that is no literal and no `NOT` starts a path. -/
theorem operand_path {name : Ident} (h : ¬ name.Reserved) :
    Operand D (.word name.word :: T) e K ↔ Path D name T e K := by
  constructor
  · intro ho
    generalize ht : Token.word name.word = t at ho
    cases ho with
    | literal h' => simp [← ht, (word_free h).1] at h'
    | unary h' => simp [← ht, (word_free h).2] at h'
    | nested => simp at ht
    | wildcard => simp at ht
    | path _ hp =>
        obtain rfl := Ident.word_inj (Token.word.inj ht)
        exact hp
  · exact .path h

/-- No other token starts an operand. -/
theorem operand_none (hvalue : t.literal? = none) (hop : t.unaryOp? = none)
    (hparen : t ≠ .lparen) (hstar : t ≠ .mul) (hword : ∀ w, t ≠ .word w) :
    ¬ Operand D (t :: T) e K := by
  intro ho
  cases ho with
  | literal h => simp [hvalue] at h
  | unary h => simp [hop] at h
  | nested => exact hparen rfl
  | wildcard => exact hstar rfl
  | path => exact hword _ rfl

end

/-! ## The readers -/

section

variable {ctx : Context} (htrailing : ctx.options.trailingCommas = false) {sub : SubParser}
  {D : SubReading} (hsub : ∀ n, Denotes ctx (sub n) (D n))
  (hl : ∀ n, Local (Follow StatementEnd) (sub n))

/-- The parts behind the first are the words behind periods, up to a token that is no period. -/
theorem parts_denotes : Denotes ctx (many do
    if ← accept .period then
      let found ← next
      match found.token with
      | .word w => return some (Ident.ofWord w)
      | _ => expected "an identifier after '.'" found
    else return none) fun T rest K => T = partTokens rest ++ K ∧ K.head? ≠ some .period := by
  -- what stands behind a period is a word, which names the part
  have hpart : ∀ l, Denotes ctx (pathPart l) fun T o K =>
      ∃ w, l.token = .word w ∧ o = some (Ident.ofWord w) ∧ K = T := by
    intro l
    unfold pathPart
    cases l.token with
    | word w => exact (Denotes.pure _).congr fun T o K _ => by simp
    | _ => exact (Denotes.fails (Fails.expected _ _)).congr fun T o K _ => by simp
  have hitem := Denotes.accept_test .period (by simp)
    (Denotes.next (F := fun t T o K => ∃ w, t = .word w ∧ o = some (Ident.ofWord w) ∧ K = T)
      (fun l _ => hpart l) (Fails.expected _ _)) (Denotes.pure none)
  refine (Denotes.many hitem (part_offers (R := Follow StatementEnd))).congr
    fun T rest K hproper => ?_
  constructor
  · intro h
    -- a word that the lexer gives is the word of its name, so the tokens are those of the parts
    induction h with
    | nil h =>
        rcases h with ⟨_, _, -, -, _, _, -, _, -, hcontra, -⟩ | ⟨hK, -, rfl⟩
        · simp at hcontra
        · exact ⟨rfl, fun hhead => hK _ hhead rfl⟩
    | cons h _ ih =>
        rcases h with ⟨t, T', rfl, rfl, t', T'', rfl, w, rfl, heq, rfl⟩ | ⟨-, hcontra, -⟩
        · obtain rfl := Option.some.inj heq
          obtain ⟨rfl, hK⟩ := ih fun t ht => hproper t (by simp [ht])
          have hw : (Ident.ofWord w).word = w := (hproper (.word w) (by simp) w rfl).symm
          exact ⟨by simp [partTokens, hw], hK⟩
        · simp at hcontra
  · rintro ⟨rfl, hK⟩
    clear hproper
    induction rest with
    | nil => exact .nil (.inr ⟨fun t ht heq => hK (heq ▸ ht), rfl, rfl⟩)
    | cons name rest ih =>
        exact .cons (.inl ⟨.period, _, rfl, rfl, .word name.word, _, rfl, name.word, rfl, rfl,
          rfl⟩) ih

include htrailing hsub hl

/-- A path without a parenthesis behind it is a name, and with one it is a call. -/
theorem parsePath_denotes (first : Ident) :
    Denotes ctx (parsePath sub first) (Path D first) := by
  -- a parenthesis behind the parts decides between a call and a name
  have hargs : Denotes ctx (commaSeparatedUntil .rparen (sub 0)) (Args D) :=
    Denotes.commaSeparatedUntil htrailing (hsub 0) (hl 0) (by simp)
  have hname : ∀ rest : List Ident, Denotes ctx
      (if rest.isEmpty then return .ident first else return .compound (first :: rest))
      fun T e K => e = ofPath first rest ∧ K = T := fun rest =>
    (Denotes.pure (ofPath first rest)).of_run fun c => by cases rest <;> rfl
  rw [parsePath]
  refine Denotes.congr (parts_denotes.bind fun rest => Denotes.accept_test .lparen (by simp)
    (hargs.bind fun args => Denotes.expect_behind .rparen (by simp)
      (Denotes.pure (Expr.call ⟨first :: rest⟩ args)))
    (hname rest)) fun T e K _ => ?_
  · constructor
    · rintro ⟨rest, M, ⟨rfl, hM⟩, ⟨t, T', rfl, rfl, args, N, hargs, t, T, rfl, rfl, rfl, rfl⟩ |
        ⟨hparen, rfl, rfl⟩⟩
      · exact .call rest hargs
      · exact .name rest ⟨hM, fun hhead => hparen _ hhead rfl⟩
    · intro h
      cases h with
      | name rest hK =>
          exact ⟨rest, K, ⟨rfl, hK.1⟩, .inr ⟨fun t ht heq => hK.2 (heq ▸ ht), rfl, rfl⟩⟩
      | @call rest args T _ hargs =>
          exact ⟨rest, .lparen :: T, ⟨rfl, by simp⟩, .inl ⟨_, _, rfl, rfl, args, _, hargs, _, _,
            rfl, rfl, rfl, rfl⟩⟩

/-- The reader of operands denotes them, case by case as its first token is. -/
theorem parseOperand_denotes : Denotes ctx (parseOperand sub) (Operand D) := by
  -- a sign and `NOT` are read in the same way
  have hunary : ∀ (t : Token) (op : UnaryOp), t.unaryOp? = some op →
      Denotes ctx (do return .unary op (← sub op.precedence)) fun T e K =>
        Operand D (t :: T) e K := fun t op h =>
    ((hsub op.precedence).map (Expr.unary op) fun _ _ _ => Iff.rfl).congr fun T e K _ =>
      (operand_unary h).symm
  have hvalue : ∀ {t : Token} {value : Literal}, t.literal? = some value →
      Denotes ctx (return .literal value) fun T e K => Operand D (t :: T) e K := fun h =>
    (Denotes.pure _).congr fun T e K _ => (operand_literal h).symm
  rw [parseOperand]
  refine (Denotes.next (F := fun t T e K => Operand D (t :: T) e K) (fun l hproper => ?_)
    (by exact Fails.expected _ _)).congr fun T e K _ => ?_
  · cases ht : l.token with
    | word w =>
        dsimp only
        rw [ht] at hproper
        have hword : (Ident.ofWord w).word = w := (hproper w rfl).symm
        split
        · exact hvalue (by simp [Token.literal?, *])
        · exact hvalue (by simp [Token.literal?, *])
        · exact hvalue (by simp [Token.literal?, *])
        · exact hunary (.word w) .not (by simp [Token.unaryOp?, *])
        · rename_i htrue hfalse hnull hnot
          -- none of the four words that mean something else, so the word is a name
          have hfree : ¬ (Ident.ofWord w).Reserved := by
            rw [← hword, bareKeyword?_word] at htrue hfalse hnull hnot
            simp only [Ident.Reserved, List.mem_cons, List.not_mem_nil, or_false, not_or]
            exact ⟨htrue, hfalse, hnull, hnot⟩
          refine (parsePath_denotes htrailing hsub hl _).congr fun T e K _ => ?_
          have h := operand_path (D := D) (e := e) (T := T) (K := K) hfree
          rw [hword] at h
          exact h.symm
    | number digits long => exact hvalue rfl
    | singleQuoted value => exact hvalue rfl
    | doubleQuoted value => exact hvalue rfl
    | minus => exact hunary .minus .minus rfl
    | plus => exact hunary .plus .plus rfl
    | lparen =>
        refine ((hsub 0).bind fun inner => Denotes.expect_behind .rparen (by simp)
          (Denotes.pure (Expr.nested inner))).congr fun T e K _ => ?_
        rw [operand_nested]
        constructor
        · rintro ⟨inner, M, hinner, t, T', rfl, rfl, rfl, rfl⟩
          exact ⟨inner, hinner, rfl⟩
        · rintro ⟨inner, hinner, rfl⟩
          exact ⟨inner, _, hinner, .rparen, K, rfl, rfl, rfl, rfl⟩
    | mul => exact (Denotes.pure _).congr fun T e K _ => operand_wildcard.symm
    | _ =>
        refine (Denotes.fails (Fails.expected _ _)).congr fun T e K _ => ?_
        simpa using operand_none rfl rfl (by simp) (by simp) (by simp)
  · constructor
    · rintro ⟨t, T', rfl, h⟩
      exact h
    · intro h
      -- conversely every operand starts with a token, and the reader is asked about that
      cases h with
      | literal h => exact ⟨_, _, rfl, .literal h⟩
      | unary h hx => exact ⟨_, _, rfl, .unary h hx⟩
      | nested h => exact ⟨_, _, rfl, .nested h⟩
      | wildcard => exact ⟨_, _, rfl, .wildcard⟩
      | path h hp => exact ⟨_, _, rfl, .path h hp⟩

/-- The list behind `IN` stands in parentheses and has an item. -/
theorem parseInList_denotes (operand : Expr) (negated : Bool) :
    Denotes ctx (parseInList sub operand negated) fun T e K => ∃ items M, T = .lparen :: M ∧
      Items (D 0) M items (.rparen :: K) ∧ e = .inList operand items negated :=
  ((Denotes.commaSeparated htrailing (hsub 0) (hl 0)).parenthesized.bind fun items =>
    Denotes.pure (Expr.inList operand items negated)).congr fun T e K _ => by
      constructor
      · rintro ⟨items, K, ⟨M, rfl, hitems⟩, rfl, rfl⟩
        exact ⟨items, M, rfl, hitems, rfl⟩
      · rintro ⟨items, M, rfl, hitems, rfl⟩
        exact ⟨items, K, ⟨M, rfl, hitems⟩, rfl, rfl⟩

omit htrailing hl in
/-- Both ends of a range stop at `AND`, which binds less tight than they are read at. -/
theorem parseBetween_denotes (operand : Expr) (negated : Bool) :
    Denotes ctx (parseBetween sub operand negated) fun T e K => ∃ low a M high,
      D Precedence.range T low (a :: M) ∧ a.keyword? = some .and ∧
        D Precedence.range M high K ∧ e = .between operand negated low high :=
  ((hsub Precedence.range).bind fun low => Denotes.keyword_behind .and
    ((hsub Precedence.range).bind fun high =>
      Denotes.pure (Expr.between operand negated low high))).congr fun T e K _ => by
        constructor
        · rintro ⟨low, _, hlow, a, M, rfl, ha, high, K, hhigh, rfl, rfl⟩
          exact ⟨low, a, M, high, hlow, ha, hhigh, rfl⟩
        · rintro ⟨low, a, M, high, hlow, ha, hhigh, rfl⟩
          exact ⟨low, _, hlow, a, M, rfl, ha, high, K, hhigh, rfl, rfl⟩

/-- `IN` and `BETWEEN`, behind `NOT` or not. -/
theorem parseRange_denotes (left : Expr) (p : Nat) : Denotes ctx (do
    let negated ← acceptKeyword .not
    if ← acceptKeyword .in then return ← parseInList sub left negated
    if ← acceptKeyword .between then return ← parseBetween sub left negated
    expected "IN or BETWEEN after NOT" (← peek))
      fun T e K => Operator D left p T e K ∧ StartsRange T := by
  refine ((Denotes.keyword .not).bind fun negated => Denotes.keyword_test .in
    (parseInList_denotes htrailing hsub hl left negated) <| Denotes.keyword_test .between
      (parseBetween_denotes hsub left negated) (Denotes.fails (Fails.expected_peek _))).congr
        fun T e K _ => ?_
  constructor
  · rintro ⟨negated, M, hneg, h⟩
    -- the word `NOT` may be there or not, and the rest is the same
    have hsplit : ∃ N, T = N ++ M ∧ IsNegation negated N := by
      rcases hneg with ⟨t, T', rfl, ht, rfl, rfl⟩ | ⟨-, rfl, rfl⟩
      · exact ⟨[t], rfl, t, rfl, ht⟩
      · exact ⟨[], rfl, rfl⟩
    obtain ⟨N, rfl, hN⟩ := hsplit
    rcases h with ⟨t, T', rfl, ht, items, M', rfl, hitems, rfl⟩ |
      ⟨-, ⟨t, T', rfl, ht, low, a, M', high, hlow, ha, hhigh, rfl⟩ | ⟨-, h⟩⟩
    · exact ⟨.inList hN ht hitems, negated, N, t, _, rfl, hN, .inl ht⟩
    · exact ⟨.between hN ht hlow ha hhigh, negated, N, t, _, rfl, hN, .inr ht⟩
    · exact h.elim
  · rintro ⟨h, hstart⟩
    cases h with
    | binary hop =>
        -- the other operators start with tokens that start no range
        rcases hstart.head with h | h | h <;>
          simp [binaryOp?_of_keyword h (by simp) (by simp)] at hop
    | isNull his =>
        have hhead := hstart.head
        simp [his] at hhead
    | isNotNull his =>
        have hhead := hstart.head
        simp [his] at hhead
    | inList hN ht hitems =>
        exact ⟨_, _, negation_reads hN ht (by simp), .inl ⟨_, _, rfl, ht, _, _, rfl, hitems, rfl⟩⟩
    | between hN ht hlow ha hhigh =>
        exact ⟨_, _, negation_reads hN ht (by simp), .inr ⟨by simp [ht], .inl
          ⟨_, _, rfl, ht, _, _, _, _, hlow, ha, hhigh, rfl⟩⟩⟩

/-- A token that `parseOperator` puts back. -/
def PutBack (t : Token) : Prop :=
  t.binaryOp? = none ∧
    (t.keyword? = some .not ∨ t.keyword? = some .in ∨ t.keyword? = some .between)

/-- The reader of operators denotes them; those that it puts back first are read from their start.
    -/
theorem parseOperator_denotes (left : Expr) (p : Nat) :
    Denotes ctx (parseOperator sub left p) (Operator D left p) := by
  rw [parseOperator]
  refine (Denotes.next_or_back (F := fun t T e K => Operator D left p (t :: T) e K)
    (B := PutBack) (fun l hproper hB => ?_) (fun l hB => ?_)
    (parseRange_denotes htrailing hsub hl left p) ?_).congr fun T e K _ => ?_
  -- by the first token: a binary operator, `IS`, the words of a range, or none of these
  · cases hop : l.token.binaryOp? with
    | some op =>
        exact ((hsub p).map (Expr.binary left op) fun _ _ _ => Iff.rfl).congr fun T e K _ =>
          (operator_binary hop).symm
    | none =>
        dsimp only
        split
        · rename_i his
          refine (Denotes.keyword_test .null (Denotes.pure (Expr.isNull left))
            (Denotes.keywords_test [.not, .null] (Denotes.pure (Expr.isNotNull left))
              (Fails.expected_peek _))).congr fun T e K _ => ?_
          simp only [operator_is his, dropWords_two]
          constructor
          · rintro (⟨t', T, rfl, hnull, rfl, rfl⟩ | ⟨-, M, ⟨t', t'', rfl, hnot, hnull⟩, rfl, rfl⟩)
            · exact .inl ⟨t', rfl, hnull, rfl⟩
            · exact .inr ⟨t', t'', rfl, hnot, hnull, rfl⟩
          · rintro (⟨t', rfl, hnull, rfl⟩ | ⟨t', t'', rfl, hnot, hnull, rfl⟩)
            · exact .inl ⟨t', K, rfl, hnull, rfl, rfl⟩
            · exact .inr ⟨by simp [hnot], K, ⟨t', t'', rfl, hnot, hnull⟩, rfl, rfl⟩
        · rename_i hk
          exact absurd ⟨hop, .inl hk⟩ hB
        · rename_i hk
          exact absurd ⟨hop, .inr (.inl hk)⟩ hB
        · rename_i hk
          exact absurd ⟨hop, .inr (.inr hk)⟩ hB
        · rename_i his hnot hin hbetween
          refine (Denotes.fails fun _ _ _ _ => throw_ne_ok).congr fun T e K _ => ?_
          simp only [false_iff]
          intro ho
          -- no operator starts with another token
          rcases ho.starts with ⟨op, h⟩ | h | h
          · simp [hop] at h
          · exact his h
          · rcases h.head with h | h | h
            · exact hnot h
            · exact hin h
            · exact hbetween h
  · obtain ⟨hop, hk⟩ := hB
    rcases hk with hk | hk | hk <;> simp only [hop, hk]
  · exact fun _ _ _ _ => throw_ne_ok
  · constructor
    · rintro ⟨t, T', rfl, ⟨-, h⟩ | ⟨-, h, -⟩⟩ <;> exact h
    · intro h
      cases T with
      | nil =>
          generalize hT : ([] : List Token) = T at h
          cases h <;> simp at hT
      | cons t T =>
          refine ⟨t, T, rfl, ?_⟩
          -- an operator whose token is put back is one that starts a range
          by_cases hB : PutBack t
          · refine .inr ⟨hB, h, ?_⟩
            rcases h.starts with ⟨op, hop⟩ | his | hstart
            · simp [hB.1] at hop
            · have hk := hB.2
              simp [his] at hk
            · exact hstart
          · exact .inl ⟨hB, h⟩

/-! ## The loop -/

omit htrailing hsub hl in
/-- The precedence is that of the tokens that are left, and none of them is taken. -/
theorem nextPrecedence_denotes :
    Denotes ctx nextPrecedence fun T n K => n = precedenceAt T ∧ K = T := by
  have hrun : ∀ {c : Cursor} {T : List Token}, c.Holds T →
      nextPrecedence ctx c = .ok (precedenceAt T) c := by
    intro c T hc
    rw [nextPrecedence, bind_run (get_ok.mpr ⟨rfl, rfl⟩), hc.peekNth, hc.peekNth]
    rfl
  constructor
  · intro c T n c' hc h
    obtain ⟨rfl, rfl⟩ := EStateM.Result.ok.inj ((hrun hc).symm.trans h)
    exact ⟨T, hc, rfl, rfl⟩
  · rintro c T n K hc ⟨rfl, rfl⟩
    exact ⟨c, hrun hc, hc⟩

/-- One more operator, if one that binds tighter than `m` stands in front. -/
def Step (D : SubReading) (m : Nat) (left : Expr) : Reading (Option Expr) := fun T o K =>
  (precedenceAt T ≤ m ∧ o = none ∧ K = T) ∨
    (m < precedenceAt T ∧ ∃ e, Operator D left (precedenceAt T) T e K ∧ o = some e)

/-- A round of the loop reads an operator if it binds tighter than the place allows. -/
theorem step_denotes (m : Nat) (left : Expr) : Denotes ctx (do
    let next ← nextPrecedence
    if next ≤ m then return none
    some <$> parseOperator sub left next) (Step D m left) := by
  have hcase : ∀ n, Denotes ctx
      (if n ≤ m then return none else some <$> parseOperator sub left n) fun T o K =>
        (n ≤ m ∧ o = none ∧ K = T) ∨ (m < n ∧ ∃ e, Operator D left n T e K ∧ o = some e) := by
    intro n
    by_cases hn : n ≤ m
    · rw [if_pos hn]
      exact (Denotes.pure none).congr fun T o K _ => by simp [hn, Nat.not_lt.mpr hn]
    · rw [if_neg hn]
      refine ((parseOperator_denotes htrailing hsub hl left n).map some
        fun _ _ _ => Iff.rfl).congr fun T o K _ => ?_
      simp [hn, Nat.lt_of_not_le hn]
  refine (nextPrecedence_denotes.bind hcase).congr fun T o K _ => ?_
  constructor
  · rintro ⟨n, M, ⟨rfl, rfl⟩, h⟩
    exact h
  · intro h
    exact ⟨_, T, ⟨rfl, rfl⟩, h⟩

omit hsub hl htrailing in
/-- The loop goes on as long as there are operators that bind tighter than `m`. -/
theorem loop_step (m : Nat) (left e : Expr) (T K : List Token) :
    Loop (Step D m) left T e K ↔ Operators D m left T e K ∧ precedenceAt K ≤ m := by
  constructor
  · intro h
    induction h with
    | done h =>
        rcases h with ⟨hle, -, rfl⟩ | ⟨-, e, -, hcontra⟩
        · exact ⟨.nil, hle⟩
        · simp at hcontra
    | more h _ ih =>
        rcases h with ⟨-, hcontra, -⟩ | ⟨hlt, e, hop, heq⟩
        · simp at hcontra
        · obtain rfl := Option.some.inj heq
          exact ⟨.cons hlt hop ih.1, ih.2⟩
  · rintro ⟨h, hle⟩
    induction h with
    | nil => exact .done (.inl ⟨hle, rfl, rfl⟩)
    | cons hlt hop _ ih => exact .more (.inr ⟨hlt, _, hop, rfl⟩) (ih hle)

/-- An expression is an operand and the operators that bind tighter than the place allows. -/
theorem climb_denotes (m : Nat) : Denotes ctx (do
    let operand ← parseOperand sub
    iterate (fun left => do
      let next ← nextPrecedence
      if next ≤ m then return none
      some <$> parseOperator sub left next) operand) (Climb D m) := by
  have hshort : Shortens (fun left => do
      let next ← nextPrecedence
      if next ≤ m then return none
      some <$> parseOperator sub left next) :=
    shortens_of (R := Follow StatementEnd) fun left =>
      .bind_right nextPrecedence_local fun next => .ite (.pure (by simp))
        (.map (parseOperator_reads hl left next).any)
  refine ((parseOperand_denotes htrailing hsub hl).bind fun operand =>
    Denotes.iterate (step_denotes htrailing hsub hl m) hshort operand).congr fun T e K _ => ?_
  simp only [Climb, Ascent, Reading.seq, loop_step]
  constructor
  · rintro ⟨operand, M, hoperand, hops, hle⟩
    exact ⟨⟨operand, M, hoperand, hops⟩, hle⟩
  · rintro ⟨⟨operand, M, hoperand, hops⟩, hle⟩
    exact ⟨operand, M, hoperand, hops, hle⟩

end

end Expr

end SchemaSql
