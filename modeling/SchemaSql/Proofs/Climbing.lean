import SchemaSql.Proofs.Climbing.Layout
import SchemaSql.Proofs.Climbing.Readers

/-! # Precedence climbing reads the legal trees

    The reader of expressions climbs: it reads an operand, and then operators as long as they
    bind tighter than the place allows.  What it reads that way are exactly the legal trees.

    * `Expr.StopsAt K` says that a tree takes in nothing of the tokens `K` behind it.
    * `Expr.Stands` is the invariant: a legal tree stands for the tokens that were read.  An
      operand satisfies it, and every operator keeps it.
    * Conversely a legal tree is climbed along its left edge, from the operand up; that the
      operators there bind tight enough is what makes the tree legal.
    * `Expr.parseAt_denotes` puts both together, by induction on the levels of nesting. -/

namespace SchemaSql

open Cursor SchemaSql.Parser Reading

namespace BinaryOp

theorem precedence_pos (op : BinaryOp) : 0 < op.precedence := by
  cases op <;> decide

/-- A sign binds tighter than every operator between operands. -/
theorem precedence_lt_sign (op : BinaryOp) : op.precedence < Precedence.sign := by
  cases op <;> decide

end BinaryOp

namespace Expr

variable {e left : Expr} {m depth : Nat} {t : Token} {S T K M : List Token}

/-! ## How tight tokens bind -/

theorem precedenceAt_binary {op : BinaryOp} (h : t.binaryOp? = some op) :
    precedenceAt (t :: T) = op.precedence := by
  simp [precedenceAt, Token.precedence, h]

theorem precedenceAt_is (h : t.keyword? = some .is) :
    precedenceAt (t :: T) = Precedence.is := by
  simp [precedenceAt, Token.precedence, h, binaryOp?_of_keyword h]

/-- `NOT` in front of `IN` or `BETWEEN` binds as they do. -/
theorem precedenceAt_range {negated : Bool} {N : List Token} (hN : IsNegation negated N)
    (ht : t.keyword? = some .in ∨ t.keyword? = some .between) :
    precedenceAt (N ++ t :: T) = Precedence.range := by
  have hop : t.binaryOp? = none := by
    rcases ht with h | h <;> exact binaryOp?_of_keyword h (by simp) (by simp)
  cases negated with
  | false =>
      obtain rfl : N = [] := hN
      rcases ht with h | h <;> simp [precedenceAt, Token.precedence, h, hop]
  | true =>
      obtain ⟨n, rfl, hn⟩ := hN
      have hnot : n.binaryOp? = none := binaryOp?_of_keyword hn (by simp) (by simp)
      rcases ht with h | h <;> simp [precedenceAt, Token.precedence, h, hn, hnot]

theorem binaryOp?_and (h : t.keyword? = some .and) : t.binaryOp? = some .and := by
  cases t with
  | word w =>
      have hw : w.keyword = some .and := h
      simp [Token.binaryOp?, hw]
  | _ => simp [Token.keyword?] at h

/-- Behind an operand nothing binds as tight as a sign in front of it. -/
theorem precedenceAt_lt_sign (T : List Token) : precedenceAt T < Precedence.sign := by
  unfold precedenceAt Token.precedence
  split
  · exact BinaryOp.precedence_lt_sign _
  · split
    · decide
    · decide
    · decide
    · split <;> decide
    · decide

/-- Neither a period nor an opening parenthesis is an operator. -/
theorem endsPath_of_pos (h : 0 < precedenceAt T) : EndsPath T := by
  have hne : ∀ t, t = .period ∨ t = .lparen → T.head? ≠ some t := by
    intro t ht hhead
    obtain ⟨T, rfl⟩ := List.head?_eq_some_iff.mp hhead
    rcases ht with rfl | rfl <;> simp [precedenceAt, Token.precedence, Token.binaryOp?,
      Token.keyword?] at h
  exact ⟨hne _ (.inl rfl), hne _ (.inr rfl)⟩

/-- The tokens that end an expression inside another one. -/
def Closes (T : List Token) : Prop := EndsPath T ∧ precedenceAt T = 0

theorem closes_comma : Closes (.comma :: T) := ⟨⟨by simp, by simp⟩, rfl⟩

theorem closes_rparen : Closes (.rparen :: T) := ⟨⟨by simp, by simp⟩, rfl⟩

theorem closes_nil : Closes [] := ⟨⟨by simp, by simp⟩, rfl⟩

/-! ## Where a tree ends -/

/-- The tree takes in nothing of the tokens behind it: its last name does not go on there, and
    no operator on its right edge gives its operand away. -/
def StopsAt (K : List Token) : Expr → Prop
  | .ident _ | .compound _ => EndsPath K
  | .binary _ op right => precedenceAt K ≤ op.precedence ∧ right.StopsAt K
  | .between _ _ _ high => precedenceAt K ≤ Precedence.range ∧ high.StopsAt K
  | .unary .not operand => precedenceAt K ≤ Precedence.not ∧ operand.StopsAt K
  | .unary .plus operand => operand.StopsAt K
  | .unary .minus operand => operand.StopsAt K
  | .literal _ | .nested _ | .call _ _ | .isNull _ | .isNotNull _ | .inList _ _ _ | .wildcard =>
    True

/-- A tree takes in nothing of what stands behind it where that binds no tighter than the operators
    on its right edge. -/
theorem stopsAt_iff (hK : EndsPath K) :
    ∀ e : Expr, e.StopsAt K ↔ e.RightFrom (precedenceAt K)
  | .ident _ | .compound _ => iff_of_true hK trivial
  | .binary _ _ right => and_congr_right fun _ => stopsAt_iff hK right
  | .between _ _ _ high => and_congr_right fun _ => stopsAt_iff hK high
  | .unary .not operand => and_congr_right fun _ => stopsAt_iff hK operand
  | .unary .plus operand => stopsAt_iff hK operand
  | .unary .minus operand => stopsAt_iff hK operand
  | .literal _ | .nested _ | .call _ _ | .isNull _ | .isNotNull _ | .inList _ _ _ | .wildcard =>
    Iff.rfl

/-- Every operator binds at least as tight as nothing does. -/
theorem rightFrom_zero : ∀ e : Expr, e.RightFrom 0
  | .binary _ _ right => ⟨Nat.zero_le _, rightFrom_zero right⟩
  | .between _ _ _ high => ⟨Nat.zero_le _, rightFrom_zero high⟩
  | .unary .not operand => ⟨Nat.zero_le _, rightFrom_zero operand⟩
  | .unary .plus operand => rightFrom_zero operand
  | .unary .minus operand => rightFrom_zero operand
  | .ident _ | .compound _ | .literal _ | .nested _ | .call _ _ | .isNull _ | .isNotNull _
  | .inList _ _ _ | .wildcard => trivial

/-- Every operator binds tighter than nothing. -/
theorem leftAbove_zero : ∀ e : Expr, e.LeftAbove 0
  | .binary left op _ => ⟨op.precedence_pos, leftAbove_zero left⟩
  | .isNull operand => ⟨by decide, leftAbove_zero operand⟩
  | .isNotNull operand => ⟨by decide, leftAbove_zero operand⟩
  | .inList operand _ _ => ⟨by decide, leftAbove_zero operand⟩
  | .between operand _ _ _ => ⟨by decide, leftAbove_zero operand⟩
  | .ident _ | .compound _ | .literal _ | .unary _ _ | .nested _ | .call _ _ | .wildcard => trivial

/-- Every tree stops where no expression goes on. -/
theorem stopsAt_of_closes (h : Closes K) (e : Expr) : e.StopsAt K := by
  rw [stopsAt_iff h.1, h.2]
  exact rightFrom_zero e

/-- A tree that an `AND` cannot be torn out of on the left cannot take one in on the right. -/
theorem rightFrom_and : ∀ {e : Expr} {m : Nat}, BinaryOp.precedence .and ≤ m → e.Legal →
    e.LeftAbove m → e.RightFrom (BinaryOp.precedence .and) := by
  intro e
  match e with
  | .binary left op right =>
      intro m hm hlegal habove
      have hop : BinaryOp.precedence .and ≤ op.precedence := hm.trans habove.1.le
      exact ⟨hop, rightFrom_and hop hlegal.2.2.1 hlegal.2.2.2⟩
  | .between operand negated low high =>
      intro m hm hlegal habove
      exact ⟨by decide, rightFrom_and (by decide) hlegal.2.2.2.2.1 hlegal.2.2.2.2.2⟩
  | .unary .not operand =>
      intro m hm hlegal habove
      exact ⟨by decide, rightFrom_and (by decide) hlegal.1 hlegal.2⟩
  -- the rest of the right edge is in the operand, which binds as tightly as the sign
  | .unary .plus operand | .unary .minus operand =>
      intro m hm hlegal habove
      exact rightFrom_and (e := operand) (m := Precedence.sign) (by decide) hlegal.1 hlegal.2
  | .ident _ | .compound _ | .literal _ | .nested _ | .call _ _ | .isNull _ | .isNotNull _
  | .inList _ _ _ | .wildcard => exact fun _ _ _ _ => trivial

/-! ## Trees that stand for tokens -/

/-- A legal tree stands for the tokens up to `K` and takes in nothing of `K`; the operators on
    its left edge bind tighter than `m`. -/
structure Stands (depth m : Nat) (T : List Token) (e : Expr) (K : List Token) : Prop where
  spelled   : ∃ S, T = S ++ K ∧ e.Spelled S
  legal     : e.Legal
  shallow   : e.levels ≤ depth
  leftAbove : e.LeftAbove m
  stops     : e.StopsAt K

/-- Behind the tree there is no operator that binds tighter than `m` either. -/
def UpTo (depth m : Nat) : Reading Expr := fun T e K =>
  Stands depth m T e K ∧ precedenceAt K ≤ m

/-- What a list of trees stands for. -/
structure ListStands (depth : Nat) (T : List Token) (items : List Expr) (K : List Token) :
    Prop where
  spelled  : ∃ A, T = A ++ K ∧ listSpelled items A
  legal    : listLegal items
  shallow  : listLevels items ≤ depth
  nonempty : items ≠ []

/-- A list is spelled by its first item and a comma, where there are more. -/
theorem listSpelled_cons {items : List Expr} {A : List Token} (h : items ≠ []) :
    listSpelled (e :: items) A ↔
      ∃ E B, A = E ++ .comma :: B ∧ e.Spelled E ∧ listSpelled items B := by
  cases items with
  | nil => exact absurd rfl h
  | cons e' rest => rw [listSpelled]; simp

/-! ## What is read is legal -/

/-- Items that were read up to their commas are a list that stands for the tokens. -/
theorem ListStands.of_items {items : List Expr} (h : Items (UpTo depth 0) T items K) :
    ListStands depth T items K := by
  induction h with
  | last ha _ =>
      obtain ⟨hstands, -⟩ := ha
      obtain ⟨S, rfl, hS⟩ := hstands.spelled
      exact ⟨⟨S, rfl, by rwa [listSpelled]⟩, ⟨hstands.legal, trivial⟩,
        by simpa [listLevels] using hstands.shallow, by simp⟩
  | more ha _ ih =>
      obtain ⟨hstands, -⟩ := ha
      obtain ⟨S, rfl, hS⟩ := hstands.spelled
      obtain ⟨⟨A, rfl, hA⟩, hlegal, hlevels, hne⟩ := ih
      refine ⟨⟨S ++ .comma :: A, by simp, ?_⟩, ⟨hstands.legal, hlegal⟩, ?_, by simp⟩
      · exact (listSpelled_cons hne).mpr ⟨S, A, rfl, hS, hA⟩
      · rw [listLevels]
        exact max_le hstands.shallow hlevels

/-- What a path stands for, whether it is a name or a call. -/
theorem Stands.of_path {first : Ident} (hfree : ¬ first.Reserved)
    (h : Path (UpTo depth) first T e K) :
    Stands (depth + 1) m (.word first.word :: T) e K := by
  cases h with
  | name rest hK =>
      cases rest with
      | nil => exact ⟨⟨[.word first.word], rfl, rfl⟩, hfree, by simp [ofPath, levels], trivial, hK⟩
      | cons second rest =>
          refine ⟨⟨pathTokens (first :: second :: rest), rfl, rfl⟩, ⟨by simp, ?_⟩,
            by simp [ofPath, levels], trivial, hK⟩
          simpa using hfree
  | @call rest args T _ hargs =>
      have hhead : ∀ name ∈ (first :: rest).head?, ¬ name.Reserved := by simpa using hfree
      -- the arguments are an empty list, or they stand for what is between the parentheses
      have hargs' : ∃ A, T = A ++ .rparen :: K ∧ listSpelled args A ∧ listLegal args ∧
          listLevels args ≤ depth := by
        rcases hargs with ⟨-, rfl, rfl⟩ | ⟨-, hitems⟩
        · exact ⟨[], rfl, by rw [listSpelled], trivial, Nat.zero_le _⟩
        · obtain ⟨⟨A, hA, hspelled⟩, hlegal, hlevels, -⟩ := ListStands.of_items hitems
          exact ⟨A, hA, hspelled, hlegal, hlevels⟩
      obtain ⟨A, rfl, hspelled, hlegal, hlevels⟩ := hargs'
      refine ⟨⟨pathTokens (first :: rest) ++ .lparen :: (A ++ [.rparen]), ?_, A, rfl, hspelled⟩,
        ⟨by simp, hhead, hlegal⟩, ?_, trivial, trivial⟩
      · simp [pathTokens]
      · simpa [levels] using hlevels

/-- An operand satisfies the invariant: no operator is on its left edge. -/
theorem Stands.of_operand (h : Operand (UpTo depth) T e K) : Stands (depth + 1) m T e K := by
  cases h with
  | literal ht => exact ⟨⟨[_], rfl, _, rfl, ht⟩, trivial, by simp [levels], trivial, trivial⟩
  | @unary op t operand T _ ht h =>
      obtain ⟨⟨⟨X, rfl, hX⟩, hlegal, hlevels, habove, hstops⟩, hle⟩ := h
      refine ⟨⟨t :: X, rfl, t, X, rfl, ht, hX⟩, ⟨hlegal, habove⟩, by simpa [levels] using hlevels,
        trivial, ?_⟩
      cases op with
      | plus => exact hstops
      | minus => exact hstops
      | not => exact ⟨hle, hstops⟩
  | nested h =>
      obtain ⟨⟨⟨X, rfl, hX⟩, hlegal, hlevels, -, -⟩, -⟩ := h
      exact ⟨⟨.lparen :: (X ++ [.rparen]), by simp, X, rfl, hX⟩, hlegal,
        by simpa [levels] using hlevels, trivial, trivial⟩
  | wildcard => exact ⟨⟨[.mul], rfl, rfl⟩, trivial, by simp [levels], trivial, trivial⟩
  | path hfree h => exact .of_path hfree h

/-- An operator keeps the invariant, because what stands in front of it stops there. -/
theorem Stands.operator (h : Stands (depth + 1) m T left M) (hm : m < precedenceAt M)
    (hop : Operator (UpTo depth) left (precedenceAt M) M e K) : Stands (depth + 1) m T e K := by
  obtain ⟨⟨X, rfl, hX⟩, hlegal, hlevels, habove, hstops⟩ := h
  rw [stopsAt_iff (endsPath_of_pos (Nat.zero_lt_of_lt hm))] at hstops
  -- in each case the first tokens behind the operand give the operator's precedence
  generalize hp : precedenceAt M = p at hm hop hstops
  cases hop with
  | @binary op right t T _ ht h =>
      obtain ⟨⟨⟨R, rfl, hR⟩, hlegal', hlevels', habove', hstops'⟩, hle⟩ := h
      rw [precedenceAt_binary ht] at hp
      subst hp
      refine ⟨⟨X ++ t :: R, by simp, X, t, R, rfl, hX, ht, hR⟩, ⟨hlegal, hstops, hlegal', habove'⟩,
        ?_, ⟨hm, habove⟩, hle, hstops'⟩
      rw [levels]
      exact max_le hlevels (Nat.succ_le_succ hlevels')
  | @isNull t t' _ ht ht' =>
      rw [precedenceAt_is ht] at hp
      subst hp
      exact ⟨⟨X ++ [t, t'], by simp, X, t, t', rfl, hX, ht, ht'⟩, ⟨hlegal, hstops⟩,
        by rwa [levels], ⟨hm, habove⟩, trivial⟩
  | @isNotNull t t' t'' _ ht ht' ht'' =>
      rw [precedenceAt_is ht] at hp
      subst hp
      exact ⟨⟨X ++ [t, t', t''], by simp, X, t, t', t'', rfl, hX, ht, ht', ht''⟩, ⟨hlegal, hstops⟩,
        by rwa [levels], ⟨hm, habove⟩, trivial⟩
  | @inList negated items t N T _ hN ht hitems =>
      obtain ⟨⟨A, rfl, hA⟩, hlegal', hlevels', hne⟩ := ListStands.of_items hitems
      rw [precedenceAt_range hN (.inl ht)] at hp
      subst hp
      refine ⟨⟨X ++ (N ++ t :: .lparen :: (A ++ [.rparen])), by simp, X, N, t, A, rfl, hX, hN, ht,
        hA⟩, ⟨hlegal, hstops, hne, hlegal'⟩, ?_, ⟨hm, habove⟩, trivial⟩
      rw [levels]
      exact max_le hlevels (Nat.succ_le_succ hlevels')
  | @between negated low high t a N T M _ hN ht hlow ha hhigh =>
      -- the first end of a range stops at `AND`, so only the second one is on the right edge
      obtain ⟨⟨⟨L, rfl, hL⟩, hlegal', hlevels', habove', -⟩, -⟩ := hlow
      obtain ⟨⟨⟨H, rfl, hH⟩, hlegal'', hlevels'', habove'', hstops''⟩, hle⟩ := hhigh
      rw [precedenceAt_range hN (.inr ht)] at hp
      subst hp
      refine ⟨⟨X ++ (N ++ t :: (L ++ a :: H)), by simp, X, N, t, L, a, H, rfl, hX, hN, ht, hL, ha,
        hH⟩, ⟨hlegal, hstops, hlegal', habove', hlegal'', habove''⟩, ?_, ⟨hm, habove⟩, hle,
        hstops''⟩
      rw [levels]
      exact max_le hlevels (max_le (Nat.succ_le_succ hlevels') (Nat.succ_le_succ hlevels''))

/-- By induction on the operators that follow the operand. -/
theorem Stands.operators (hops : Operators (UpTo depth) m left M e K) :
    ∀ {T}, Stands (depth + 1) m T left M → Stands (depth + 1) m T e K := by
  induction hops with
  | nil => exact fun h => h
  | cons hm hop _ ih => exact fun h => ih (h.operator hm hop)

/-! ## Legal trees are read -/

/-- No expression starts with a closing parenthesis. -/
theorem head_of_spelled : ∀ {e : Expr} {S : List Token} (K : List Token), e.Legal → e.Spelled S →
    (S ++ K).head? ≠ some .rparen := by
  intro e
  match e with
  | .ident name =>
      rintro S K - rfl
      simp
  | .compound parts =>
      rintro S K hlegal rfl
      cases parts with
      | nil => exact absurd hlegal.1 (by simp)
      | cons first rest => simp [pathTokens]
  | .literal value =>
      rintro S K - ⟨t, rfl, ht⟩ hhead
      obtain rfl : t = .rparen := by simpa using hhead
      simp [Token.literal?, Token.bareKeyword?] at ht
  | .unary op operand =>
      rintro S K - ⟨t, X, rfl, ht, -⟩ hhead
      obtain rfl : t = .rparen := by simpa using hhead
      simp [Token.unaryOp?, Token.bareKeyword?] at ht
  | .nested inner =>
      rintro S K - ⟨X, rfl, -⟩
      simp
  | .call ⟨parts⟩ args =>
      rintro S K hlegal ⟨A, rfl, -⟩
      cases parts with
      | nil => exact absurd hlegal.1 (by simp)
      | cons first rest => simp [pathTokens]
  | .wildcard =>
      rintro S K - rfl
      simp
  -- an operator stands behind its operand, so the operand's first token is the tree's
  | .binary left op right =>
      rintro S K hlegal ⟨L, t, R, rfl, hL, -, -⟩
      simpa using head_of_spelled (t :: R ++ K) hlegal.1 hL
  | .isNull operand =>
      rintro S K hlegal ⟨X, t, t', rfl, hX, -, -⟩
      simpa using head_of_spelled (t :: t' :: K) hlegal.1 hX
  | .isNotNull operand =>
      rintro S K hlegal ⟨X, t, t', t'', rfl, hX, -, -, -⟩
      simpa using head_of_spelled (t :: t' :: t'' :: K) hlegal.1 hX
  | .inList operand items negated =>
      rintro S K hlegal ⟨X, N, t, A, rfl, hX, -, -, -⟩
      simpa using head_of_spelled (N ++ t :: .lparen :: (A ++ .rparen :: K)) hlegal.1 hX
  | .between operand negated low high =>
      rintro S K hlegal ⟨X, N, t, L, a, H, rfl, hX, -, -, -, -, -⟩
      simpa using head_of_spelled (N ++ t :: (L ++ a :: (H ++ K))) hlegal.1 hX

/-- A legal tree inside another, up to a token that ends it. -/
theorem UpTo.of_closes (hS : e.Spelled S) (hlegal : e.Legal) (hlevels : e.levels ≤ depth)
    (hK : Closes K) : UpTo depth 0 (S ++ K) e K :=
  ⟨⟨⟨S, rfl, hS⟩, hlegal, hlevels, leftAbove_zero e, stopsAt_of_closes hK e⟩, hK.2.le⟩

/-- The items of a legal list are read up to the commas between them. -/
theorem ListStands.items : ∀ {items : List Expr} {T : List Token},
    ListStands depth T items (.rparen :: K) → Items (UpTo depth 0) T items (.rparen :: K) := by
  intro items
  induction items with
  | nil => exact fun h => absurd rfl h.nonempty
  | cons e items ih =>
      rintro T ⟨⟨A, rfl, hA⟩, ⟨hlegal, hrest⟩, hlevels, -⟩
      rw [listLevels] at hlevels
      have hdepth : e.levels ≤ depth := (le_max_left _ _).trans hlevels
      -- the last item ends in front of the parenthesis, the others in front of a comma
      by_cases hnil : items = []
      · subst hnil
        rw [listSpelled] at hA
        exact .last (.of_closes hA hlegal hdepth closes_rparen) (by simp)
      · obtain ⟨E, B, rfl, hE, hB⟩ := (listSpelled_cons hnil).mp hA
        have hmore := ih ⟨⟨B, rfl, hB⟩, hrest, (le_max_right _ _).trans hlevels, hnil⟩
        have hfirst := UpTo.of_closes (K := .comma :: (B ++ .rparen :: K)) hE hlegal hdepth
          closes_comma
        rw [List.append_assoc, List.cons_append]
        exact .more hfirst hmore

/-- The arguments of a call, of which there may be none. -/
theorem args_of_spelled {args : List Expr} {A : List Token} (hA : listSpelled args A)
    (hlegal : listLegal args) (hlevels : listLevels args ≤ depth) :
    Args (UpTo depth) (A ++ .rparen :: K) args (.rparen :: K) := by
  cases args with
  | nil =>
      obtain rfl : A = [] := by simpa [listSpelled] using hA
      exact .inl ⟨rfl, rfl, rfl⟩
  | cons e rest =>
      refine .inr ⟨?_, ListStands.items ⟨⟨A, rfl, hA⟩, hlegal, hlevels, by simp⟩⟩
      by_cases hnil : rest = []
      · subst hnil
        rw [listSpelled] at hA
        exact head_of_spelled _ hlegal.1 hA
      · obtain ⟨E, B, rfl, hE, -⟩ := (listSpelled_cons hnil).mp hA
        simpa using head_of_spelled (.comma :: B ++ .rparen :: K) hlegal.1 hE

/-- One more operator behind those that were climbed, which is how a left edge grows. -/
theorem Operators.snoc {sub : SubReading} {e' : Expr} (h : Operators sub m left T e M)
    (hm : m < precedenceAt M) (hop : Operator sub e (precedenceAt M) M e' K) :
    Operators sub m left T e' K := by
  induction h with
  | nil => exact .cons hm hop .nil
  | cons hm' hop' _ ih => exact .cons hm' hop' (ih hm hop)

/-- One more operator at the top of an ascent. -/
theorem Ascent.snoc {sub : SubReading} {p : Nat} (h : Ascent sub m T left M)
    (hp : precedenceAt M = p) (hm : m < p) (hop : Operator sub left p M e K) :
    Ascent sub m T e K := by
  subst hp
  obtain ⟨operand, M', hoperand, hops⟩ := h
  exact ⟨operand, M', hoperand, hops.snoc hm hop⟩

/-- What stands in front of an operator that its place allows. -/
theorem Stands.in_front {p : Nat} (hp : precedenceAt K = p) (hm : m < p) (hS : e.Spelled S)
    (hlegal : e.Legal) (hlevels : e.levels ≤ depth) (habove : e.LeftAbove m)
    (hright : e.RightFrom p) : Stands depth m (S ++ K) e K := by
  subst hp
  have hends : EndsPath K := endsPath_of_pos (Nat.zero_lt_of_lt hm)
  exact ⟨⟨S, rfl, hS⟩, hlegal, hlevels, habove, (stopsAt_iff hends e).mpr hright⟩

/-- By induction along the left edge, from the operand up. -/
theorem Stands.ascent : ∀ {e : Expr} {T K : List Token}, Stands (depth + 1) m T e K →
    Ascent (UpTo depth) m T e K := by
  intro e
  match e with
  | .ident name =>
      rintro T K ⟨⟨S, rfl, rfl⟩, hfree, -, -, hK⟩
      exact ⟨_, K, .path hfree (.name [] hK), .nil⟩
  | .compound parts =>
      rintro T K ⟨⟨S, rfl, rfl⟩, ⟨hlength, hfree⟩, -, -, hK⟩
      match parts, hlength with
      | first :: second :: rest, _ =>
          exact ⟨_, K, .path (hfree first rfl) (.name (second :: rest) hK), .nil⟩
  | .literal value =>
      rintro T K ⟨⟨S, rfl, t, rfl, ht⟩, -, -, -, -⟩
      exact ⟨_, K, .literal ht, .nil⟩
  | .unary op operand =>
      rintro T K ⟨⟨S, rfl, t, X, rfl, ht, hX⟩, ⟨hlegal, habove⟩, hlevels, -, hstops⟩
      rw [Expr.levels] at hlevels
      have hoperand : UpTo depth op.precedence (X ++ K) operand K := by
        have hdepth : operand.levels ≤ depth := Nat.le_of_succ_le_succ hlevels
        -- no operator binds tighter than a sign, so only `NOT` has a condition
        have hsign : precedenceAt K ≤ Precedence.sign := (precedenceAt_lt_sign K).le
        cases op with
        | not => exact ⟨⟨⟨X, rfl, hX⟩, hlegal, hdepth, habove, hstops.2⟩, hstops.1⟩
        | plus => exact ⟨⟨⟨X, rfl, hX⟩, hlegal, hdepth, habove, hstops⟩, hsign⟩
        | minus => exact ⟨⟨⟨X, rfl, hX⟩, hlegal, hdepth, habove, hstops⟩, hsign⟩
      exact ⟨_, K, .unary ht hoperand, .nil⟩
  | .nested inner =>
      rintro T K ⟨⟨S, rfl, X, rfl, hX⟩, hlegal, hlevels, -, -⟩
      rw [Expr.levels] at hlevels
      have hinner : UpTo depth 0 (X ++ .rparen :: K) inner (.rparen :: K) :=
        .of_closes hX hlegal (Nat.le_of_succ_le_succ hlevels) closes_rparen
      exact ⟨_, K, by simpa using Operand.nested hinner, .nil⟩
  | .call ⟨parts⟩ args =>
      rintro T K ⟨⟨S, rfl, A, rfl, hA⟩, ⟨hlength, hfree, hlegal⟩, hlevels, -, -⟩
      rw [Expr.levels] at hlevels
      match parts, hlength with
      | first :: rest, _ =>
          have hargs : Args (UpTo depth) (A ++ .rparen :: K) args (.rparen :: K) :=
            args_of_spelled hA hlegal (Nat.le_of_succ_le_succ hlevels)
          have hpath := Operand.path (hfree first rfl) (.call rest hargs)
          exact ⟨_, K, by simpa [pathTokens] using hpath, .nil⟩
  | .wildcard =>
      rintro T K ⟨⟨S, rfl, rfl⟩, -, -, -, -⟩
      exact ⟨_, K, .wildcard, .nil⟩
  | .binary left op right =>
      rintro T K ⟨⟨S, rfl, L, t, R, rfl, hL, ht, hR⟩, ⟨hlegal, hright, hlegal', habove'⟩, hlevels,
        ⟨hm, habove⟩, hle, hstops⟩
      rw [Expr.levels, max_le_iff] at hlevels
      have hp : precedenceAt (t :: (R ++ K)) = op.precedence := precedenceAt_binary ht
      have hleft := Stands.in_front hp hm hL hlegal hlevels.1 habove hright
      have hrightStands : Stands depth op.precedence (R ++ K) right K :=
        ⟨⟨R, rfl, hR⟩, hlegal', Nat.le_of_succ_le_succ hlevels.2, habove', hstops⟩
      rw [List.append_assoc]
      exact hleft.ascent.snoc hp hm (.binary ht ⟨hrightStands, hle⟩)
  | .isNull operand =>
      rintro T K ⟨⟨S, rfl, X, t, t', rfl, hX, ht, ht'⟩, ⟨hlegal, hright⟩, hlevels, ⟨hm, habove⟩, -⟩
      rw [Expr.levels] at hlevels
      have hp : precedenceAt (t :: t' :: K) = Precedence.is := precedenceAt_is ht
      rw [List.append_assoc]
      exact (Stands.in_front hp hm hX hlegal hlevels habove hright).ascent.snoc hp hm
        (.isNull ht ht')
  | .isNotNull operand =>
      rintro T K ⟨⟨S, rfl, X, t, t', t'', rfl, hX, ht, ht', ht''⟩, ⟨hlegal, hright⟩, hlevels,
        ⟨hm, habove⟩, -⟩
      rw [Expr.levels] at hlevels
      have hp : precedenceAt (t :: t' :: t'' :: K) = Precedence.is := precedenceAt_is ht
      rw [List.append_assoc]
      exact (Stands.in_front hp hm hX hlegal hlevels habove hright).ascent.snoc hp hm
        (.isNotNull ht ht' ht'')
  | .inList operand items negated =>
      rintro T K ⟨⟨S, rfl, X, N, t, A, rfl, hX, hN, ht, hA⟩, ⟨hlegal, hright, hne, hitems⟩, hlevels,
        ⟨hm, habove⟩, -⟩
      rw [Expr.levels, max_le_iff] at hlevels
      have hp : precedenceAt (N ++ t :: .lparen :: (A ++ .rparen :: K)) = Precedence.range :=
        precedenceAt_range hN (.inl ht)
      have hlist : ListStands depth (A ++ .rparen :: K) items (.rparen :: K) :=
        ⟨⟨A, rfl, hA⟩, hitems, Nat.le_of_succ_le_succ hlevels.2, hne⟩
      have hfront := Stands.in_front hp hm hX hlegal hlevels.1 habove hright
      simpa using hfront.ascent.snoc hp hm (.inList hN ht hlist.items)
  | .between operand negated low high =>
      rintro T K ⟨⟨S, rfl, X, N, t, L, a, H, rfl, hX, hN, ht, hL, ha, hH⟩,
        ⟨hlegal, hright, hlow, hlowAbove, hhigh, hhighAbove⟩, hlevels, ⟨hm, habove⟩, hle, hstops⟩
      rw [Expr.levels, max_le_iff, max_le_iff] at hlevels
      have hp : precedenceAt (N ++ t :: (L ++ a :: (H ++ K))) = Precedence.range :=
        precedenceAt_range hN (.inr ht)
      -- The lower bound ends in front of `AND` although `AND` is an operator: no operator on
      -- its right edge is looser, since its left edge has none either.
      have hand : precedenceAt (a :: (H ++ K)) = BinaryOp.precedence .and :=
        precedenceAt_binary (binaryOp?_and ha)
      have hlowStands : Stands depth Precedence.range (L ++ a :: (H ++ K)) low (a :: (H ++ K)) := by
        have hends : EndsPath (a :: (H ++ K)) := endsPath_of_pos (by rw [hand]; decide)
        refine ⟨⟨L, rfl, hL⟩, hlow, Nat.le_of_succ_le_succ hlevels.2.1, hlowAbove, ?_⟩
        rw [stopsAt_iff hends, hand]
        exact rightFrom_and (by decide) hlow hlowAbove
      have hhighStands : Stands depth Precedence.range (H ++ K) high K :=
        ⟨⟨H, rfl, hH⟩, hhigh, Nat.le_of_succ_le_succ hlevels.2.2, hhighAbove, hstops⟩
      have hfront := Stands.in_front hp hm hX hlegal hlevels.1 habove hright
      simpa using hfront.ascent.snoc hp hm
        (.between hN ht ⟨hlowStands, by rw [hand]; decide⟩ ha ⟨hhighStands, hle⟩)

/-- A climb goes along the left edge of a legal tree. -/
theorem climb_iff : Climb (UpTo depth) m T e K ↔ UpTo (depth + 1) m T e K := by
  refine and_congr_left fun _ => ⟨?_, Stands.ascent⟩
  rintro ⟨operand, M, hoperand, hops⟩
  exact Stands.operators hops (.of_operand hoperand)

/-- Reading a tree takes at least one level. -/
theorem one_le_levels : ∀ e : Expr, 1 ≤ e.levels := by
  intro e
  match e with
  | .ident _ | .compound _ | .literal _ | .wildcard => rw [Expr.levels]
  | .unary _ _ | .nested _ | .call _ _ =>
      rw [Expr.levels]
      exact Nat.le_add_left 1 _
  | .binary left _ _ | .inList left _ _ | .between left _ _ _ =>
      rw [Expr.levels]
      exact (one_le_levels left).trans (le_max_left _ _)
  | .isNull operand | .isNotNull operand =>
      rw [Expr.levels]
      exact one_le_levels operand

/-- By induction on the levels of nesting, all of which are left. -/
theorem parseAt_denotes {ctx : Context} (htrailing : ctx.options.trailingCommas = false)
    (depth m : Nat) : Denotes { ctx with depth } (parseAt depth m) (UpTo depth m) := by
  induction depth generalizing m with
  | zero =>
      have hfails : Fails (parseAt 0 m) := fun _ _ _ _ => throw_ne_ok
      refine (Denotes.fails hfails).congr fun T e K _ => ?_
      have hnone : ¬ UpTo 0 m T e K := fun h =>
        absurd h.1.shallow (Nat.not_le.mpr (one_le_levels e))
      exact iff_of_false id hnone
  | succ depth ih =>
      have hl : ∀ n, Local (Follow StatementEnd) (parseAt depth n) := fun n =>
        (parseAt_reads depth n).isLocal
      have htrailing' : ({ ctx with depth } : Context).options.trailingCommas = false := htrailing
      exact ((climb_denotes htrailing' ih hl m).congr fun T e K _ => climb_iff).descend

/-! ## Exactly the legal trees -/

/-- A printed tree is read back if and only if it is legal and the levels suffice, and whatever
    is read is legal.  Here the tokens of a tree are those of its text. -/
theorem parse_exact {ctx : Context} (htrailing : ctx.options.trailingCommas = false) :
    (∀ e : Expr, printedText e.layout = e.text ∧ solid e.layout = e.tokens) ∧
    (∀ (e : Expr) (c : Cursor), c.overrun = 0 → solidTokens c.unread = e.tokens →
      ((∃ c', parse ctx c = .ok e c' ∧ c'.Holds []) ↔ e.Legal ∧ e.levels ≤ ctx.depth)) ∧
    ∀ (c : Cursor) (T : List Token) (e : Expr) (c' : Cursor), c.Holds T → parse ctx c = .ok e c' →
      e.Legal ∧ e.levels ≤ ctx.depth ∧ ∃ S K, T = S ++ K ∧ e.Spelled S ∧ c'.Holds K := by
  have hparse : Denotes ctx parse (UpTo ctx.depth 0) :=
    (parseAt_denotes htrailing ctx.depth 0).of_run fun c => rfl
  refine ⟨fun e => ⟨text_layout e, solid_layout e⟩, ?_, ?_⟩
  · intro e c hoverrun htokens
    have hc : c.Holds e.tokens := ⟨hoverrun, htokens, proper_tokens e⟩
    constructor
    · rintro ⟨c', hrun, -⟩
      obtain ⟨K, -, hstands, -⟩ := hparse.sound hc hrun
      exact ⟨hstands.legal, hstands.shallow⟩
    -- nothing is behind the tree, which closes every expression
    · rintro ⟨hlegal, hlevels⟩
      refine hparse.complete hc (K := []) ?_
      simpa using UpTo.of_closes (spelled_tokens e) hlegal hlevels closes_nil
  · intro c T e c' hc hrun
    obtain ⟨K, hK, hstands, -⟩ := hparse.sound hc hrun
    obtain ⟨S, hS, hspelled⟩ := hstands.spelled
    exact ⟨hstands.legal, hstands.shallow, S, K, hS, hspelled, hK⟩

/-- `NOT 1 = 2` is the negation of an equation and not an equation whose left side is negated. -/
theorem parse_not_equals :
    let one : Expr := .literal (.number "1" false)
    let two : Expr := .literal (.number "2" false)
    let c : Cursor := .ofTokens [⟨.ofKeyword .not, ⟨1, 1⟩⟩, ⟨.number "1" false, ⟨1, 5⟩⟩,
      ⟨.eq, ⟨1, 7⟩⟩, ⟨.number "2" false, ⟨1, 9⟩⟩]
    (∃ c', parse { dialect := .generic } c = .ok (.unary .not (.binary one .eq two)) c' ∧
      c'.Holds []) ∧
    ¬ ∃ c', parse { dialect := .generic } c = .ok (.binary (.unary .not one) .eq two) c' ∧
      c'.Holds [] := by
  intro one two c
  have h := (@parse_exact { dialect := .generic } rfl).2.1
  constructor
  · refine (h _ c rfl rfl).mpr ⟨?_, ?_⟩
    · simp [one, two, Legal, LeftAbove, RightFrom, UnaryOp.precedence, Precedence.not,
        BinaryOp.precedence]
    · simp [one, two, levels]
  · intro hread
    obtain ⟨-, ⟨hle, -⟩, -⟩ : Legal _ := ((h _ c rfl rfl).mp hread).1
    exact absurd hle (by decide)

end Expr

end SchemaSql
