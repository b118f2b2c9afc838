import SchemaSql.Proofs.Climbing.Layout
import SchemaSql.Proofs.Climbing.Readers
import SchemaSql.Proofs.Reprinting.Spends

/-! # How the tokens of an expression are printed

    An expression is printed with the tokens that it was read from, one for one, but for three
    things: keywords get capitals, an equals sign has one spelling, and the comma that a list
    may end in is left out.  `Reprints` is that relation, and each reader of expressions is
    shown to take tokens that are printed as what it gives (`Expr.parse_reprints`). -/

namespace SchemaSql

open Cursor SchemaSql.Parser

/-! ## Tokens and how they are printed -/

/-- The keywords of operators and literals, which are printed in capitals. -/
def Keyword.capitalized : List Keyword :=
  [.and, .or, .not, .is, .in, .between, .null, .true, .false]

/-- A token and the one that is printed for it. -/
inductive Token.Reprinted : Token → Token → Prop
  | same (t : Token) : Reprinted t t
  | keyword {t : Token} {k : Keyword} : k ∈ Keyword.capitalized → t.keyword? = some k →
      Reprinted t (.ofKeyword k)
  | equals : Reprinted .doubleEq .eq

/-- Tokens and those that are printed for them, where `trailing` allows that a comma in front of
    a closing parenthesis is left out. -/
inductive Reprints (trailing : Bool) : List Token → List Token → Prop
  | nil : Reprints trailing [] []
  | cons {t t' : Token} {S L : List Token} : t.Reprinted t' → Reprints trailing S L →
      Reprints trailing (t :: S) (t' :: L)
  | comma {S L : List Token} : trailing = true → Reprints trailing (.rparen :: S) L →
      Reprints trailing (.comma :: .rparen :: S) L

namespace Reprints

variable {trailing : Bool} {S L S' L' : List Token} {t : Token}

/-- Tokens may be printed as they are. -/
theorem refl : ∀ S : List Token, Reprints trailing S S
  | [] => .nil
  | t :: S => .cons (.same t) (refl S)

/-- Lists of tokens may be printed one behind the other. -/
theorem append (h : Reprints trailing S L) (h' : Reprints trailing S' L') :
    Reprints trailing (S ++ S') (L ++ L') := by
  induction h with
  | nil => exact h'
  | cons ht _ ih => exact .cons ht ih
  | comma htrailing _ ih => exact .comma htrailing ih

/-- What is printed was read, or it is a keyword or an equals sign. -/
theorem mem (h : Reprints trailing S L) (ht : t ∈ L) :
    t ∈ S ∨ (∃ k, t = .ofKeyword k) ∨ t = .eq := by
  induction h with
  | nil => simp at ht
  | cons hprinted _ ih =>
      rcases List.mem_cons.mp ht with rfl | hmem
      · cases hprinted with
        | same => exact .inl (by simp)
        | keyword => exact .inr (.inl ⟨_, rfl⟩)
        | equals => exact .inr (.inr rfl)
      · exact (ih hmem).imp_left (List.mem_cons_of_mem _)
  | comma _ _ ih => exact (ih ht).imp_left (List.mem_cons_of_mem _)

end Reprints

namespace Token.Reprinted

variable {t : Token}

/-- An operator is printed in capitals, and an equals sign with one character. -/
theorem binary {op : BinaryOp} (h : t.binaryOp? = some op) : t.Reprinted op.token := by
  unfold Token.binaryOp? at h
  split at h
  case h_2 => exact Option.some.inj h ▸ .equals
  case h_18 w =>
    split at h
    · rename_i hk
      exact Option.some.inj h ▸ .keyword (by decide) hk
    · rename_i hk
      exact Option.some.inj h ▸ .keyword (by decide) hk
    · cases h
  all_goals first | exact Option.some.inj h ▸ .same _ | cases h

/-- A keyword without quotes is printed in capitals. -/
theorem of_bareKeyword {k : Keyword} (h : t.bareKeyword? = some k)
    (hk : k ∈ Keyword.capitalized) : t.Reprinted (.ofKeyword k) := by
  refine .keyword hk ?_
  cases t with
  | word w =>
      simp only [Token.bareKeyword?] at h
      split at h
      · exact h
      · cases h
  | _ => cases h

end Token.Reprinted

namespace Expr

/-- The tokens of a list are those of its items with commas between them. -/
theorem listTokens_eq (items : List Expr) : listTokens items = commas (items.map tokens) := by
  induction items with
  | nil => rfl
  | cons e rest ih =>
      cases rest with
      | nil => simp [listTokens, commas]
      | cons e' rest =>
          rw [listTokens, ih]
          · simp [commas]
          · simp

/-- `NOT` is printed where it was read. -/
theorem negation_reprints {trailing negated : Bool} {N : List Token}
    (h : IsNegation negated N) : Reprints trailing N (negationTokens negated) := by
  cases negated with
  | false =>
      obtain rfl : N = [] := h
      exact .nil
  | true =>
      obtain ⟨t, rfl, ht⟩ := h
      exact .cons (.keyword (by decide) ht) .nil

/-- The tokens of a list and the parenthesis behind it. -/
theorem list_reprints {trailing : Bool} {S : List Token} {items : List Expr}
    (h : Separated trailing (fun S e => Reprints trailing S e.tokens) S items) :
    Reprints trailing (S ++ [.rparen]) (listTokens items ++ [.rparen]) := by
  obtain ⟨parts, hparts, hS⟩ := h
  have hcommas : Reprints trailing (commas parts) (listTokens items) := by
    clear hS
    rw [listTokens_eq]
    cases hparts with
    | nil => exact .nil
    | cons hfirst hrest =>
        refine hfirst.append ?_
        induction hrest with
        | nil => exact .nil
        | cons hpart _ ih => exact .cons (.same _) (hpart.append ih)
  have hclose : Reprints trailing [.rparen] [.rparen] := .refl _
  rcases hS with rfl | ⟨htrailing, rfl⟩
  · exact hcommas.append hclose
  · rw [List.append_assoc]
    exact hcommas.append (.comma htrailing hclose)

/-! ## Readers -/

section

variable {ctx : Context} {sub : SubParser}

/-- The tokens are printed as the tree. -/
abbrev Printing (ctx : Context) (S : List Token) (e : Expr) : Prop :=
  Reprints ctx.options.trailingCommas S e.tokens

/-- The tokens are printed as what stands behind `left` in the tree. -/
def Behind (ctx : Context) (left : Expr) (S : List Token) (e : Expr) : Prop :=
  ∃ L, e.tokens = left.tokens ++ L ∧ Reprints ctx.options.trailingCommas S L

variable (hsub : ∀ n, Spends ctx (sub n) (Printing ctx))

include hsub

/-- Words and periods are printed as they were read, and arguments with a comma between each two. -/
theorem parsePath_reprints (first : Ident) :
    Spends ctx (parsePath sub first) fun S e => Printing ctx (.word first.word :: S) e := by
  refine .bind (Q := fun S rest => S = partTokens rest)
    (.of_denotes parts_denotes fun ⟨hT, _⟩ => ⟨_, hT, rfl⟩) fun S rest hS => ?_
  subst hS
  refine .test (.accept (by simp)) (fun x hx => ?_) (.ite (fun hnil => .pure ?_) fun _ => .pure ?_)
  · refine .bind (.commaSeparatedUntil .rparen (hsub 0)) fun A args hargs =>
      .bind (.expect (by simp)) fun R _ hR => .pure ?_
    subst hx hR
    have hlist := (Reprints.refl (pathTokens (first :: rest))).append
      (.cons (.same .lparen) (list_reprints hargs))
    simpa [Printing, tokens, pathTokens] using hlist
  · obtain rfl := List.isEmpty_iff.mp hnil
    exact .refl _
  · simpa [Printing, tokens, pathTokens] using Reprints.refl _

/-- Each kind of operand is printed with the tokens that it was read from. -/
theorem parseOperand_reprints : Spends ctx (parseOperand sub) (Printing ctx) := by
  -- a sign or `NOT` in front of what it applies to
  have hunary : ∀ {t : Token} (op : UnaryOp), t.Reprinted op.token →
      Spends ctx (do return .unary op (← sub op.precedence)) fun S e => Printing ctx (t :: S) e :=
    fun op ht => .bind (hsub op.precedence) fun S e he => .pure <| by
      simpa [Printing, tokens] using Reprints.cons ht he
  have hvalue : ∀ {t : Token} {value : Literal}, t.Reprinted value.token →
      Spends ctx (return .literal value) fun S e => Printing ctx (t :: S) e := fun ht =>
    .pure <| by simpa [Printing, tokens] using Reprints.cons ht .nil
  rw [parseOperand]
  refine .next (fun l hproper => ?_) (by exact Fails.expected _ _)
  cases ht : l.token with
  | word w =>
      rw [ht] at hproper
      have hword : (Ident.ofWord w).word = w := (hproper w rfl).symm
      dsimp only
      split
      · exact hvalue (.of_bareKeyword ‹_› (by decide))
      · exact hvalue (.of_bareKeyword ‹_› (by decide))
      · exact hvalue (.of_bareKeyword ‹_› (by decide))
      · exact hunary .not (.of_bareKeyword ‹_› (by decide))
      · simpa [hword] using parsePath_reprints hsub (Ident.ofWord w)
  | number digits long => exact hvalue (.same _)
  | singleQuoted value => exact hvalue (.same _)
  | doubleQuoted value => exact hvalue (.same _)
  | minus => exact hunary .minus (.same _)
  | plus => exact hunary .plus (.same _)
  | lparen =>
      refine .bind (hsub 0) fun S e he => .bind (.expect (by simp)) fun R _ hR => .pure ?_
      subst hR
      simpa [Printing, tokens] using Reprints.cons (.same .lparen) (he.append (.refl [.rparen]))
  | mul => exact .pure (by simpa [Printing, tokens] using Reprints.refl _)
  | _ => exact .fails (Fails.expected _ _)

/-- A comma in front of the closing parenthesis is not printed. -/
theorem parseInList_reprints (operand : Expr) (negated : Bool) :
    Spends ctx (parseInList sub operand negated) fun S e => ∃ A items,
      S = .lparen :: (A ++ [.rparen]) ∧ e = .inList operand items negated ∧
      Reprints ctx.options.trailingCommas (A ++ [.rparen]) (listTokens items ++ [.rparen]) := by
  refine .bind (.parenthesized (.commaSeparated (hsub 0))) fun S items h => .pure ?_
  obtain ⟨A, rfl, hA⟩ := h
  exact ⟨A, items, by simp, rfl, list_reprints hA⟩

/-- The ends of a range are printed around `AND`. -/
theorem parseBetween_reprints (operand : Expr) (negated : Bool) :
    Spends ctx (parseBetween sub operand negated) fun S e => ∃ low high,
      e = .between operand negated low high ∧ Reprints ctx.options.trailingCommas S
        (low.tokens ++ .ofKeyword .and :: high.tokens) := by
  refine .bind (hsub _) fun S low hlow => .bind (.expectKeyword .and) fun A _ hA =>
    .bind (hsub _) fun S' high hhigh => .pure ⟨low, high, rfl, ?_⟩
  obtain ⟨t, rfl, ht⟩ := hA
  simpa using hlow.append (.cons (.keyword (by decide) ht) hhigh)

/-- `NOT` stands in front of `IN` or `BETWEEN`, in the text and in the print. -/
theorem parseRange_reprints (left : Expr) : Spends ctx (do
    let negated ← acceptKeyword .not
    if ← acceptKeyword .in then return ← parseInList sub left negated
    if ← acceptKeyword .between then return ← parseBetween sub left negated
    expected "IN or BETWEEN after NOT" (← peek)) (Behind ctx left) := by
  refine .bind (Q := fun N negated => IsNegation negated N)
    (.mono (.acceptKeyword .not) fun N negated h => ?_) fun N negated hN => ?_
  · cases negated with
    | false => simpa [IsNegation] using h
    | true => simpa [IsNegation] using h
  -- `NOT` is printed where it was read
  · have hnegation : Reprints ctx.options.trailingCommas N (negationTokens negated) :=
      negation_reprints hN
    refine .test (.acceptKeyword .in) (fun t ht => ?_) <|
      .test (.acceptKeyword .between) (fun t ht => ?_) (.fails (Fails.expected_peek _))
    · refine (parseInList_reprints hsub left negated).mono fun S e h => ?_
      obtain ⟨A, items, rfl, rfl, hA⟩ := h
      exact ⟨_, by rw [tokens], hnegation.append (.cons (.keyword (by decide) ht)
        (.cons (.same .lparen) hA))⟩
    · refine (parseBetween_reprints hsub left negated).mono fun S e h => ?_
      obtain ⟨low, high, rfl, hS⟩ := h
      exact ⟨_, by rw [tokens], hnegation.append (.cons (.keyword (by decide) ht) hS)⟩

/-- An operator is printed behind the operand that was read in front of it. -/
theorem parseOperator_reprints (left : Expr) (p : Nat) :
    Spends ctx (parseOperator sub left p) (Behind ctx left) := by
  rw [parseOperator]
  -- three keywords are put back for the reader of ranges
  refine .next_or_back (B := PutBack) (fun l hproper hB => ?_) (fun l hB => ?_)
    (parseRange_reprints hsub left) fun _ _ _ _ => throw_ne_ok
  · cases hop : l.token.binaryOp? with
    | some op =>
        refine .bind (hsub p) fun S right hright => .pure ?_
        exact ⟨_, by rw [tokens], .cons (.binary hop) (by simpa using hright)⟩
    | none =>
        dsimp only
        split
        · rename_i his
          refine .test (.acceptKeyword .null) (fun t ht => .pure ?_) <| .of_denotes
            (.keywords_test [.not, .null] (.pure (isNotNull left)) (Fails.expected_peek _))
            fun {T v K} h => ?_
          · exact ⟨_, by rw [tokens], .cons (.keyword (by decide) his)
              (.cons (.keyword (by decide) ht) .nil)⟩
          · obtain ⟨M, hM, rfl, rfl⟩ := h
            obtain ⟨t, t', rfl, ht, ht'⟩ := dropWords_two.mp hM
            exact ⟨[t, t'], rfl, _, by rw [tokens], .cons (.keyword (by decide) his)
              (.cons (.keyword (by decide) ht) (.cons (.keyword (by decide) ht') .nil))⟩
        · rename_i hk
          exact absurd ⟨hop, .inl hk⟩ hB
        · rename_i hk
          exact absurd ⟨hop, .inr (.inl hk)⟩ hB
        · rename_i hk
          exact absurd ⟨hop, .inr (.inr hk)⟩ hB
        · exact .fails fun _ _ _ _ => throw_ne_ok
  · obtain ⟨hop, hk⟩ := hB
    rcases hk with hk | hk | hk <;> simp only [hop, hk]

end

/-- By induction on the levels of nesting. -/
theorem parseAt_reprints (ctx : Context) (depth precedence : Nat) :
    Spends ctx (parseAt depth precedence) (Printing ctx) := by
  induction depth generalizing ctx precedence with
  | zero => exact .fails fun _ _ _ _ => throw_ne_ok
  | succ depth ih =>
      refine .descend fun levels => ?_
      -- the levels change nothing about what is printed
      show Spends { ctx with depth := levels } _ (Printing { ctx with depth := levels })
      refine .bind (parseOperand_reprints (ih _)) fun S operand hoperand => ?_
      refine .iterate (I := fun S' e => Printing { ctx with depth := levels } (S ++ S') e)
        (fun _ _ h => h)
        (fun S' left hleft => ?_) (by simpa using hoperand)
      -- the operator is only looked at here
      refine .bind (Q := fun N _ => N = []) (.of_denotes nextPrecedence_denotes
        fun ⟨_, hK⟩ => ⟨[], hK.symm, rfl⟩) fun N next hN => ?_
      subst hN
      refine .ite (fun _ => .pure ⟨fun _ => by simpa using hleft, by simp⟩) fun _ =>
        .map (parseOperator_reprints (ih _) left next) fun R e h => ⟨by simp, ?_⟩
      rintro _ ⟨⟩
      obtain ⟨L, hL, hR⟩ := h
      rw [Printing, hL]
      simpa using hleft.append hR

/-- The tokens that an expression is read from are printed as it. -/
theorem parse_reprints (ctx : Context) : Spends ctx parse (Printing ctx) :=
  fun c T v c' hc hrun => parseAt_reprints ctx ctx.depth 0 c T v c' hc hrun

end Expr

end SchemaSql
