import SchemaSql.Proofs.Climbing
import SchemaSql.Proofs.Contents
import SchemaSql.Proofs.Rereading.Names

/-! # Echoes of expressions

    An expression ends in front of a token that binds no tighter than its place allows, and a
    path in front of one that is neither a period nor an opening parenthesis.  Both are so in
    front of the print of what follows if they are so in front of what follows.

    A minus sign in front of a text that starts with another one is printed as a comment.  No
    operator binds tighter than a sign, so what is read behind one is an operand, and the only
    operand whose text starts with a minus sign is one behind a minus sign. -/

namespace SchemaSql

open Cursor SchemaSql.Parser

variable {ctx : Context} {n m : Nat} {T T' P : List Token} {t : Token}

@[simp] theorem Token.binaryOp?_role (t : Token) : t.role.binaryOp? = t.binaryOp? := by
  cases t <;> rfl

namespace Expr

/-! ## What stands behind an expression -/

/-- A path goes on in the second list only where it does in the first one. -/
def EndsPathAlike : TokenRel := fun T T' =>
  ∀ s, s = .period ∨ s = .lparen → frontOf T' = s → frontOf T = s

/-- An expression goes on in the second list only where it does in the first one. -/
structure Looser (T T' : List Token) : Prop where
  precedence : precedenceAt T' ≤ precedenceAt T
  path       : EndsPathAlike T T'

/-- Where the print's path ends it does not go on. -/
theorem EndsPathAlike.of_ends (h : EndsPath T') : EndsPathAlike T T' := by
  intro s hs hfront
  cases T' with
  | nil => rcases hs with rfl | rfl <;> cases hfront
  | cons t T' =>
      obtain rfl : t = s := hfront
      rcases hs with rfl | rfl
      · exact absurd rfl h.1
      · exact absurd rfl h.2

theorem Looser.of_closes (h : Closes T') : Looser T T' :=
  ⟨h.2.le.trans (Nat.zero_le _), .of_ends h.1⟩

/-- Behind an expression in parentheses stands the closing one. -/
theorem Looser.of_facing_rparen (h : Facing .rparen T T') : Looser T T' := by
  obtain ⟨U, U', rfl, rfl⟩ := h
  exact .of_closes closes_rparen

theorem precedenceAt_cons (t : Token) (T : List Token) :
    precedenceAt (t :: T) = t.precedence (frontOf T) := by
  cases T <;> rfl

/-- The loop of operators looks at two tokens. -/
theorem precedenceAt_of_shadows (h : Shadows 2 T T') : precedenceAt T = precedenceAt T' := by
  cases T with
  | nil => simp_all
  | cons t T =>
      cases T' with
      | nil => simp at h
      | cons t' T' =>
          obtain ⟨hrole, htail⟩ := shadows_cons.mp h
          have hop : t.binaryOp? = t'.binaryOp? := by
            rw [← Token.binaryOp?_role, hrole, Token.binaryOp?_role]
          have hkeyword := Token.keyword?_of_role hrole
          rw [precedenceAt_cons, precedenceAt_cons]
          cases hword : t.isWord with
          | true =>
              -- behind a word the second token counts: `NOT` binds as the `IN` or `BETWEEN` behind
              -- it
              have hbehind := Token.keyword?_of_role (htail hword).front
              simp only [Token.precedence, hop, hkeyword, hbehind]
          | false =>
              have hnone : t'.keyword? = none := by
                rw [← hkeyword]
                cases t <;> first | rfl | cases hword
              simp only [Token.precedence, hop, hkeyword, hnone]

theorem EndsPathAlike.of_shadows (h : Shadows (n + 1) T T') : EndsPathAlike T T' := by
  intro s hs hfront
  have hsign : s.IsSign := by
    rcases hs with rfl | rfl <;> trivial
  exact (Token.eq_sign_of_role h.front hsign).mpr hfront

/-- Tokens that look alike let an expression go on alike. -/
theorem Looser.of_shadows (h : Shadows (n + 2) T T') : Looser T T' :=
  ⟨(precedenceAt_of_shadows (h.mono (by omega))).ge, .of_shadows h⟩

/-- Behind an item of a list stands a comma or the closing parenthesis. -/
theorem Looser.of_item {trailing : Bool} {S : TokenRel}
    (h : BehindItem trailing S (Facing .rparen) T T') : Looser T T' := by
  cases h with
  | further => exact .of_closes closes_comma
  | last _ h => exact .of_facing_rparen h
  | comma _ _ h =>
      obtain ⟨U, U', rfl, rfl⟩ := h
      exact .of_closes closes_rparen

/-! ## The text of an expression -/

/-- A minus sign does not stand in front of another one. -/
def Single (e : Expr) : Prop := ∀ operand, e ≠ .unary .minus (.unary .minus operand)

/-- Only the text of a negated expression starts with a minus sign. -/
def Dashed (e : Expr) : Prop :=
  e.text.toList.head? = some '-' → ∃ operand, e = .unary .minus operand

/-- The pieces of a list have commas between them. -/
theorem listChunks_eq (items : List Expr) :
    listChunks items = Text.Chunks.separated ", " (items.map chunks) := by
  induction items with
  | nil => rfl
  | cons e rest ih =>
      cases rest with
      | nil => simp [listChunks, Text.Chunks.separated]
      | cons e' rest =>
          rw [listChunks, ih]
          · simp [Text.Chunks.separated]
          · simp

theorem text_call (function : ObjectName) (args : List Expr) : (call function args).text =
    function.text ++ ("(" ++ Text.commaSeparated (args.map text) ++ ")") := by
  have hchunks : (fun e : Expr => e.chunks.text) = text := rfl
  simp [text, chunks, listChunks_eq, Text.commaSeparated, String.append_assoc, Function.comp_def,
    hchunks]

theorem text_inList (operand : Expr) (items : List Expr) (negated : Bool) :
    (inList operand items negated).text = operand.text ++ (" " ++ (negation negated ++ "IN "
      ++ ("(" ++ Text.commaSeparated (items.map text) ++ ")"))) := by
  have hchunks : (fun e : Expr => e.chunks.text) = text := rfl
  simp [text, chunks, listChunks_eq, Text.commaSeparated, String.append_assoc, Function.comp_def,
    hchunks]
  rfl

end Expr

/-- A token whose text starts with a minus sign is one. -/
theorem Token.Lucid.eq_minus {d : Dialect} [d.Regular] {u : Bool} (h : t.Lucid d u)
    (hdash : t.text.toList.head? = some '-') : t = .minus := by
  obtain ⟨c, cs, htext, hscan⟩ := h.spelled
  obtain rfl : c = '-' := by simpa [htext] using hdash
  have hrun := hscan [] (by simp)
  rw [List.append_nil] at hrun
  by_cases hsecond : ∀ x ∈ cs.head?, x ≠ '-'
  · rw [Token.scan_sign (by decide) cs (fun _ => hsecond) (by simp)] at hrun
    exact (Prod.mk.inj (Except.ok.inj hrun)).1.symm
  -- two hyphens start a comment, which is a blank and not a token of the text
  · obtain ⟨rest, rfl⟩ : ∃ rest, cs = '-' :: rest := by
      cases cs with
      | nil => simp at hsecond
      | cons x rest => exact ⟨rest, by simpa using hsecond⟩
    have hstart : d.startsIdentifier '-' = false := (Dialect.Regular.sign '-' (by decide)).1
    have hopen : d.opensQuotedIdentifier '-' = false := by
      by_contra hopens
      exact absurd (Dialect.Regular.opens (d := d) '-' (by simpa using hopens)) (by decide)
    simp [Token.scan, hstart, hopen] at hrun
    have hblank := h.solid
    rw [← hrun.1] at hblank
    cases hblank

/-- The tokens and blanks make up the text, unless a minus sign stands in front of another one
    in what is stored. -/
def Written (ctx : Context) (nodes : List Node) (s : String) (P : List Token) : Prop :=
  Throughout Expr.Single nodes → Prints ctx s P

/-- Items that are written one by one make up a list that is written. -/
theorem Written.listing [ctx.dialect.Regular] {α : Type} {nodes : α → List Node} {g : α → String}
    {items : List α} {parts : List (List Token)}
    (h : Each (fun a P => Written ctx (nodes a) (g a) P) items parts) :
    Written ctx (items.flatMap nodes) (Text.commaSeparated (items.map g)) (listed parts) := by
  intro hsingle
  rw [throughout_flatMap] at hsingle
  have hall := (List.forall₂_and_left ..).mpr ⟨hsingle, h⟩
  exact .listing (hall.imp fun _ _ h => h.2 h.1)

namespace Expr

/-- What a list stores is what its items store, one behind the other. -/
theorem listContents_eq (items : List Expr) : listContents items = items.flatMap contents := by
  induction items with
  | nil => rfl
  | cons e rest ih => simp [listContents, ih]

/-- The print of an expression that binds tighter than `m`: behind a sign only a text with a
    minus sign in front starts with one. -/
def WrittenAt (ctx : Context) (m : Nat) (e : Expr) (P : List Token) : Prop :=
  (Precedence.sign ≤ m → Dashed e) ∧ Written ctx e.contents e.text P

/-- The tokens and blanks make up what is printed of an expression behind its left side. -/
def WrittenBehind (ctx : Context) (left e : Expr) (P : List Token) : Prop :=
  Throughout Single e.contents →
    Throughout Single left.contents ∧ ∃ s, e.text = left.text ++ s ∧ Trails ctx s P

/-- The tokens in front look the same to a list. -/
def StartsAlike : TokenRel := fun T T' => Shadows 1 T T' ∧ frontOf T' ≠ .comma

/-- Whether an expression starts is seen from the first token, which must be no comma. -/
theorem StartsAlike.of_role {t t' : Token} (hrole : t.role = t'.role) (hcomma : t' ≠ .comma) :
    StartsAlike (t :: T) (t' :: T') := ⟨.cons hrole shadows_zero, hcomma⟩

variable [hd : Fact (ctx.dialect ∈ Dialect.builtin)]

/-- A binary operator is a sign or a keyword, and is read back as itself. -/
theorem prints_binary (op : BinaryOp) : Prints ctx op.text [op.token] := by
  have hspelled : op.token.Spelled ctx.dialect ctx.options.unescape := by
    cases op with
    | and => exact (spelled_keyword .and).1
    | or => exact (spelled_keyword .or).1
    | _ => exact Token.spelled_of_isSign trivial
  refine ⟨?_, fun Q hQ => hspelled.legible_cons hQ⟩
  cases op <;> rfl

/-- A plus sign can be printed in front of anything. -/
theorem prints_plus : Leads ctx "+" [.plus] :=
  ⟨rfl, fun _ => ⟨fun h => h.2.2, fun h =>
    ⟨Token.spelled_of_isSign trivial, fun _ _ => trivial, h⟩⟩⟩

/-- A minus sign is read back in front of a text that does not start with one. -/
theorem prints_minus {s : String} (h : Prints ctx s P) (hs : s.toList.head? ≠ some '-') :
    Prints ctx ("-" ++ s) (.minus :: P) := by
  refine .intro (by rw [Token.textOf_cons, h.text]; rfl) fun Q hQ hlegible =>
    ⟨Token.spelled_of_isSign trivial, fun x hx => ?_, (h.legible Q hQ).mpr hlegible⟩
  have hx : x ∈ (Token.textOf (P ++ Q)).toList.head? := hx
  rw [Token.textOf_append, h.text, String.toList_append, List.head?_append] at hx
  rcases Option.or_eq_some_iff.mp hx with hx | ⟨-, hx⟩
  · rintro rfl
    exact hs hx
  · exact Token.stops_behind _ (hQ.head hx)

/-! ## Operands -/

section

variable {sub : SubParser}
  (hsub : ∀ m, Echoes ctx (sub m) (WrittenAt ctx m) (fun _ => Looser) StartsAlike)
  (hl : ∀ m, Local (Follow StatementEnd) (sub m))

omit hd in
/-- A part of a path is a word behind a period, and it is printed without a blank. -/
theorem part_echoes : Echoes ctx (do
    if ← accept .period then
      let found ← next
      match found.token with
      | .word w => return some (Ident.ofWord w)
      | _ => expected "an identifier after '.'" found
    else return none)
    (fun o P => o.elim (P = []) fun part => ObjectName.Part ctx part P)
    (fun _ => EndsPathAlike) EndsPathAlike := by
  refine (Echoes.accept_of (s := .period) (N := [.period]) trivial rfl (fun _ _ s _ h => h)
    fun T T' h => h .period (.inl rfl)).bind fun b P hP => ?_
  subst hP
  cases b with
  | false => exact .pure rfl fun _ _ h => h
  | true =>
      -- behind the period a word is taken and everything else refused
      refine .take (fun t => match t with
        | .word w => some (some (Ident.ofWord w))
        | _ => none) (fun t => [t]) (fun l o ho => ?_) (fun l hnone => ?_) rfl
        fun t o ht ho => ?_
      · obtain ⟨t, loc⟩ := l
        cases t <;> first | (cases ho; done) | (obtain rfl := Option.some.inj ho; rfl)
      · obtain ⟨t, loc⟩ := l
        cases t <;> first | exact .expected _ _ | cases hnone
      · cases t with
        | word w =>
            obtain rfl := Option.some.inj ho
            exact ⟨⟨_, rfl, ht, rfl⟩, _, rfl, rfl, fun _ _ _ => trivial⟩
        | _ => cases ho

include hsub hl

/-- The arguments of a call. -/
theorem args_echoes : Echoes ctx (commaSeparatedUntil .rparen (sub 0))
    (fun args P => Written ctx (listContents args) (Text.commaSeparated (args.map text)) P)
    (fun _ => Facing .rparen) Anything := by
  refine (Echoes.commaSeparatedUntil (show Token.IsSign .rparen from trivial) (hsub 0) (hl 0)
    (fun _ _ _ h => .of_item h) (fun _ _ h => h) nofun).print fun args P hP => ?_
  obtain ⟨parts, hparts, rfl⟩ := hP
  rw [listContents_eq]
  exact .listing (hparts.imp fun _ _ h => h.2)

/-- A word, the parts behind it and the arguments of a call are printed without blanks. -/
theorem parsePath_echoes {first : Ident} (ht : t.Lucid ctx.dialect ctx.options.unescape)
    (hfirst : t.Names first) : Echoes ctx (parsePath sub first)
      (fun e P => Written ctx e.contents e.text (t :: P) ∧ ∃ s, e.text = first.text ++ s)
      (fun _ => Looser) EndsPathAlike := by
  have hparts : Echoes ctx _ (ObjectName.Parts ctx) (fun _ => EndsPathAlike) EndsPathAlike :=
    (Echoes.many_alike part_offers part_echoes).print fun _ _ ⟨_, hPs, hP⟩ => hP ▸ .of_each hPs
  -- however many parts follow, the text starts with the first one
  have hfront (rest : List Ident) : ∃ s,
      (ObjectName.mk (first :: rest)).text = first.text ++ s := by
    cases rest with
    | nil => exact ⟨"", by simp [ObjectName.text]⟩
    | cons second rest =>
        exact ⟨"." ++ (ObjectName.mk (second :: rest)).text, by
          simp [ObjectName.text, String.append_assoc]⟩
  refine hparts.bind fun rest P hP => ?_
  obtain ⟨ts, rfl, hts, hrest⟩ := hP
  have hname : Prints ctx (ObjectName.mk (first :: rest)).text (t :: dotted ts) :=
    ObjectName.prints (List.forall_mem_cons.mpr ⟨ht, hts⟩) (.cons hfirst hrest)
  refine (Echoes.accept_of (s := .lparen) (N := [.lparen]) trivial rfl (fun _ _ s _ h => h)
    fun T T' h => h .lparen (.inr rfl)).bind fun b P hP => ?_
  subst hP
  cases b with
  | true =>
      refine (args_echoes hsub hl).bind fun args P hargs =>
        Echoes.after (Echoes.expect (N := [.rparen]) trivial rfl) (.pure ?_ fun _ _ _ => trivial)
      refine ⟨fun hsingle => ?_, ?_⟩
      · simp only [contents, throughout_expr] at hsingle
        rw [text_call]
        exact (hname.append (hargs hsingle.2).enclosed).of_eq rfl (by simp)
      · obtain ⟨s, hs⟩ := hfront rest
        exact ⟨_, by rw [text_call, hs, String.append_assoc]⟩
  | false =>
      -- without an argument list it is a single name or a compound one
      refine .ite (fun h => absurd h (by simp)) fun _ =>
        .ite (fun hnil => .pure ?_ fun _ _ => Looser.path) fun _ => .pure ?_ fun _ _ => Looser.path
      · obtain rfl := List.isEmpty_iff.mp hnil
        exact ⟨fun _ => hname.of_eq (by simp [ObjectName.text, text, chunks]) (by simp), "", by
          simp [text, chunks]⟩
      · have htext : (compound (first :: rest)).text = (ObjectName.mk (first :: rest)).text := by
          simp [text, chunks, ObjectName.text]
        rw [htext]
        exact ⟨fun _ => hname.of_eq rfl (by simp), hfront rest⟩

omit hsub hl in
/-- A text that starts with that of another token does not start with a minus sign. -/
theorem dashed_of_front {e : Expr} (ht : t.Lucid ctx.dialect ctx.options.unescape)
    (hne : t ≠ .minus) (htext : ∃ s, e.text = t.text ++ s) : Dashed e := by
  intro hdash
  obtain ⟨s, hs⟩ := htext
  obtain ⟨c, cs, hc, -⟩ := ht.spelled
  refine absurd (ht.eq_minus ?_) hne
  rw [hs, String.toList_append, hc] at hdash
  rw [hc]
  exact hdash

omit hsub hl hd in
theorem value_echoes {value : Literal} {R S : TokenRel} (hdashed : Dashed (.literal value))
    (hP : Prints ctx value.text P) (hS : ∀ T T', R T T' → S T T') :
    Echoes ctx (return .literal value)
      (fun e P' => Dashed e ∧ Written ctx e.contents e.text (P ++ P')) (fun _ => R) S :=
  .pure ⟨hdashed, fun _ => hP.of_eq (by simp [text, chunks]) (by simp)⟩ hS

/-- What the first token of an operand is printed as. -/
def operandLayout (t : Token) : List Token :=
  match t.bareKeyword? with
  | some .true => [.ofKeyword .true]
  | some .false => [.ofKeyword .false]
  | some .null => [.ofKeyword .null]
  | some .not => [.ofKeyword .not, .space]
  | _ => [t]

/-- An operand that starts with a word. -/
def wordOperand (sub : SubParser) (keyword : Option Keyword) (first : Ident) : Parser Expr :=
  match keyword with
  | some .true => return .literal (.boolean true)
  | some .false => return .literal (.boolean false)
  | some .null => return .literal .null
  | some .not => return .unary .not (← sub Precedence.not)
  | _ => parsePath sub first

omit hsub hl hd in
/-- The printed word is read as the word was. -/
theorem operandLayout_word (sub : SubParser) (w : Word) : ∃ w',
    solid (operandLayout (.word w)) = [.word w'] ∧
      (Token.word w).role = (Token.word w').role ∧
      wordOperand sub (Token.word w').bareKeyword? (Ident.ofWord w') =
        wordOperand sub (Token.word w).bareKeyword? (Ident.ofWord w) := by
  have hkeyword : ∀ k, (Token.word w).bareKeyword? = some k → ∃ w', Token.ofKeyword k = .word w' ∧
      (Token.word w).role = (Token.word w').role ∧ (Token.word w').bareKeyword? = some k :=
    fun k hk => ⟨_, rfl, Token.role_ofKeyword hk, bareKeyword?_ofKeyword k⟩
  unfold operandLayout
  split
  case h_5 => exact ⟨w, rfl, rfl, rfl⟩
  all_goals
    next hk =>
      obtain ⟨w', hw, hrole, hword⟩ := hkeyword _ hk
      exact ⟨w', by simp [hw], hrole, by rw [hk, hword]; rfl⟩

/-- An operand that starts with a word is a literal, a negation or a path. -/
theorem wordOperand_echoes {w : Word}
    (ht : (Token.word w).Lucid ctx.dialect ctx.options.unescape) :
    Echoes ctx (wordOperand sub (Token.word w).bareKeyword? (Ident.ofWord w))
      (fun e P => Dashed e ∧ Written ctx e.contents e.text (operandLayout (.word w) ++ P))
      (fun _ => Looser) Anything := by
  unfold wordOperand operandLayout
  split
  · exact value_echoes (fun h => absurd h (by decide)) (.keyword .true) fun _ _ _ => trivial
  · exact value_echoes (fun h => absurd h (by decide)) (.keyword .false) fun _ _ _ => trivial
  · exact value_echoes (fun h => absurd h (by decide)) (.keyword .null) fun _ _ _ => trivial
  · refine ((hsub _).front fun _ _ _ => trivial).bind fun o P ho =>
      .pure ⟨?_, fun hsingle => ?_⟩ fun _ _ h => h
    · simp [Dashed, text, chunks]
    · simp only [contents, throughout_expr] at hsingle
      refine ((Prints.keyword .not).leads.append (ho.2 hsingle.2)).of_eq ?_ (by simp)
      simp [text, chunks]
      rfl
  · refine (parsePath_echoes hsub hl ht rfl).mono (fun e P h => ⟨?_, ?_⟩) (fun _ _ _ h => h)
      fun _ _ _ => trivial
    · have htext : (Ident.ofWord w).text = (Token.word w).text := ht.printed
      exact dashed_of_front ht (by simp) (htext ▸ h.2)
    · simpa using h.1

/-- Each kind of operand is told by its first token, and only a negated one starts with a minus
    sign. -/
theorem parseOperand_echoes : Echoes ctx (parseOperand sub)
    (fun e P => Dashed e ∧ Written ctx e.contents e.text P) (fun _ => Looser) StartsAlike := by
  refine .next operandLayout (fun l hl' => ?_) (Fails.expected _ _)
  obtain ⟨t, loc⟩ := l
  cases t with
  | word w =>
      obtain ⟨w', hw, hrole, hsame⟩ := operandLayout_word sub w
      refine .inr ⟨_, hw, ?_, (wordOperand_echoes hsub hl hl').front fun _ _ _ =>
        .of_role hrole (by simp)⟩
      rintro ⟨_, loc'⟩ rfl d v d' h
      exact (congrArg (fun p : Parser Expr => p ctx d) hsame).trans h
  -- a literal prints as the token it was read from
  | number | singleQuoted | doubleQuoted =>
      refine .inr ⟨_, rfl, ?_, value_echoes (dashed_of_front hl' (by simp) ⟨"", ?_⟩) hl'.prints
        fun _ _ _ => .of_role rfl (by simp)⟩
      · rintro ⟨_, loc'⟩ rfl d v d' h
        exact h
      · simp [text, chunks]
        rfl
  | minus =>
      refine .inr ⟨_, rfl, ?_, ((hsub _).front fun _ _ _ => .of_role rfl (by simp)).bind
        fun o P ho => .pure ⟨fun _ => ⟨o, rfl⟩, fun hsingle => ?_⟩ fun _ _ h => h⟩
      · rintro ⟨_, loc'⟩ rfl d v d' h
        exact h
      · simp only [contents, throughout_expr] at hsingle
        refine (prints_minus (ho.2 hsingle.2) fun hdash => ?_).of_eq ?_
          (by simp [operandLayout, Token.bareKeyword?])
        -- an operand that prints with a hyphen in front is a minus itself, which the provisos
        -- exclude
        · obtain ⟨o', rfl⟩ := ho.1 (Nat.le_refl _) hdash
          exact hsingle.1 o' rfl
        · simp [text, chunks]
          rfl
  | plus =>
      refine .inr ⟨_, rfl, ?_, ((hsub _).front fun _ _ _ => .of_role rfl (by simp)).bind
        fun o P ho => .pure ⟨?_, fun hsingle => ?_⟩ fun _ _ h => h⟩
      · rintro ⟨_, loc'⟩ rfl d v d' h
        exact h
      · simp [Dashed, text, chunks, UnaryOp.text]
      · simp only [contents, throughout_expr] at hsingle
        refine (prints_plus.append (ho.2 hsingle.2)).of_eq ?_
          (by simp [operandLayout, Token.bareKeyword?])
        simp [text, chunks]
        rfl
  | lparen =>
      -- inside of parentheses any expression may stand, and the closing one ends it
      refine .inr ⟨_, rfl, ?_, (((hsub 0).behind fun _ _ _ => .of_facing_rparen).front
        fun _ _ _ => .of_role rfl (by simp)).bind fun e P he =>
          .after (.expect (N := [.rparen]) trivial rfl) (.pure ⟨?_, fun hsingle => ?_⟩
            fun _ _ _ => trivial)⟩
      · rintro ⟨_, loc'⟩ rfl d v d' h
        exact h
      · simp [Dashed, text, chunks]
      · simp only [contents, throughout_expr] at hsingle
        refine (he.2 hsingle.2).enclosed.toPrints.of_eq ?_
          (by simp [operandLayout, Token.bareKeyword?])
        simp [text, chunks, String.append_assoc]
  | mul =>
      refine .inr ⟨_, rfl, ?_, .pure ⟨fun h => absurd h (by decide), fun _ => ?_⟩
        fun _ _ _ => .of_role rfl (by simp)⟩
      · rintro ⟨_, loc'⟩ rfl d v d' h
        exact h
      · exact hl'.prints.of_eq rfl (by simp [operandLayout, Token.bareKeyword?])
  | _ => exact .inl (Fails.expected _ _)

/-! ## Operators -/

omit hsub hl in
theorem negation_leads (negated : Bool) :
    Leads ctx (negation negated) (negationLayout negated) := by
  cases negated with
  | false => exact .nil
  | true => exact (Prints.keyword .not).leads

/-- The list behind `IN` is printed in its parentheses, with `NOT` in front if it was there. -/
theorem parseInList_echoes (left : Expr) (negated : Bool) :
    Echoes ctx (parseInList sub left negated) (fun e P => WrittenBehind ctx left e
      (.space :: (negationLayout negated ++ .ofKeyword .in :: .space :: P)))
    (fun _ => Looser) (Shadows n) := by
  refine (Echoes.parenthesized ((Echoes.commaSeparated (hsub 0) (hl 0)
    (fun _ _ _ h => .of_item h) (fun _ _ h => h.1) ?_))).bind fun items P hP =>
      .pure (fun hsingle => ?_) fun _ _ _ => trivial
  · rintro _ _ ⟨U, U', -, rfl⟩
    exact nofun
  · obtain ⟨P', ⟨parts, hparts, rfl, -⟩, rfl⟩ := hP
    simp only [contents, throughout_expr, throughout_append, listContents_eq] at hsingle
    have hlist := (Written.listing (hparts.imp fun _ _ h => h.2)) hsingle.2.2
    refine ⟨hsingle.2.1, _, text_inList left items negated, ?_⟩
    exact ((negation_leads negated).append ((Prints.keyword .in).leads.append
      hlist.enclosed.toPrints)).trails.of_eq (by simp [String.append_assoc]; rfl) (by simp)

omit hl in
/-- The ends of a range are printed around `AND`, which neither of them reads. -/
theorem parseBetween_echoes (left : Expr) (negated : Bool) :
    Echoes ctx (parseBetween sub left negated) (fun e P => WrittenBehind ctx left e
      (.space :: (negationLayout negated ++ .ofKeyword .between :: .space :: P)))
    (fun _ => Looser) StartsAlike := by
  refine ((hsub _).behind fun _ _ _ h => .of_shadows h).bind fun low P hlow =>
    (Echoes.keyword_behind (k := .and) (N := [.space, .ofKeyword .and, .space]) rfl
      (((hsub _).front fun _ _ h => h.1).bind fun high P' hhigh => .pure (fun hsingle => ?_)
        fun _ _ h => h))
  simp only [contents, throughout_expr, throughout_append] at hsingle
  have hbounds := (hlow.2 hsingle.2.1.2).append
    ((Prints.keyword .and).leads.append (hhigh.2 hsingle.2.2)).trails
  refine ⟨hsingle.2.1.1, " " ++ (negation negated ++ ("BETWEEN " ++ (low.text ++ (" AND " ++
    high.text)))), ?_, ?_⟩
  · simp [text, chunks, String.append_assoc]
  · exact ((negation_leads negated).append ((Prints.keyword .between).leads.append
      hbounds)).trails.of_eq (by simp [String.append_assoc]; rfl) (by simp)

/-- `IN` and `BETWEEN`, negated or not. -/
theorem parseRange_echoes (left : Expr) : Echoes ctx (do
    let negated ← acceptKeyword .not
    if ← acceptKeyword .in then return ← parseInList sub left negated
    if ← acceptKeyword .between then return ← parseBetween sub left negated
    expected "IN or BETWEEN after NOT" (← peek))
    (WrittenBehind ctx left) (fun _ => Looser) (Shadows 2) := by
  refine ((Echoes.acceptKeyword (n := 1) (k := .not) (N := [.space, .ofKeyword .not]) rfl).front
    fun _ _ h => h).bind fun negated N hN => ?_
  subst hN
  -- the space belongs to `NOT` where it is written, else to `IN` or `BETWEEN`
  have hspace : ∀ P : List Token, (if negated then [Token.space, .ofKeyword .not] else [])
      ++ .space :: P = .space :: (negationLayout negated ++ P) := by
    cases negated <;> simp [negationLayout]
  have hrest : Echoes ctx (do
      if ← acceptKeyword .in then return ← parseInList sub left negated
      if ← acceptKeyword .between then return ← parseBetween sub left negated
      expected "IN or BETWEEN after NOT" (← peek))
      (fun e P => WrittenBehind ctx left e
        ((if negated then [.space, .ofKeyword .not] else []) ++ P))
      (fun _ => Looser) (Shadows 2) := by
    refine .keyword_test (n := 1) (k := .in) (N := [.space, .ofKeyword .in, .space]) rfl
      ((parseInList_echoes hsub hl left negated).print fun e P h => ?_) <|
        .keyword_test (n := 1) (k := .between) (N := [.space, .ofKeyword .between, .space]) rfl
          (((parseBetween_echoes hsub left negated).print fun e P h => ?_).front fun _ _ h => h.1)
          (.of_fails (Fails.expected_peek _))
    · simpa [hspace] using h
    · simpa [hspace] using h
  refine hrest.front fun T T' h => ?_
  cases negated with
  | false => exact h
  | true => exact h.mono (by omega)

omit hsub hl in
/-- What stands behind `IS`. -/
theorem parseIs_echoes (left : Expr) : Echoes ctx (do
    if ← acceptKeyword .null then return .isNull left
    if ← acceptKeywords [.not, .null] then return .isNotNull left
    expected "[NOT] NULL after IS" (← peek))
    (fun e P => WrittenBehind ctx left e (.space :: .ofKeyword .is :: P)) (fun _ => Looser)
    (Shadows 1) := by
  refine .keyword_test (n := 0) (k := .null) (N := [.space, .ofKeyword .null]) rfl
    (.pure (fun hsingle => ?_) fun _ _ _ => shadows_zero) <| .front (S := Shadows 2)
      (.keywords_test (n := 0) (N := [.space, .ofKeyword .not, .space, .ofKeyword .null]) rfl
        (.pure (fun hsingle => ?_) fun _ _ _ => shadows_zero)
        (.of_fails (Fails.expected_peek _))) fun _ _ h => h.mono (by decide)
  · simp only [contents, throughout_expr] at hsingle
    refine ⟨hsingle.2, " IS NULL", by simp [text, chunks], ?_⟩
    exact ((Prints.keyword .is).append (Prints.keyword .null).trails).trails
  · simp only [contents, throughout_expr] at hsingle
    refine ⟨hsingle.2, " IS NOT NULL", by simp [text, chunks], ?_⟩
    exact ((Prints.keyword .is).append ((Prints.keyword .not).trails.append
      (Prints.keyword .null).trails)).trails

/-- An operator that is not read once more from the start. -/
def operatorFrom (sub : SubParser) (left : Expr) (precedence : Nat) (found : Located) :
    Parser Expr :=
  match found.token.binaryOp? with
  | some op => return .binary left op (← sub precedence)
  | none => match found.token.keyword? with
    | some .is => do
      if ← acceptKeyword .null then return .isNull left
      if ← acceptKeywords [.not, .null] then return .isNotNull left
      expected "[NOT] NULL after IS" (← peek)
    | _ => throw (.notAnOperator found)

/-- What an operator is printed as, with the blanks around it. -/
def operatorLayout (t : Token) : List Token :=
  match t.binaryOp? with
  | some op => [.space, op.token, .space]
  | none => [.space, .ofKeyword .is]

omit hl in
/-- A sign is printed between spaces, and `IS` with the words behind it. -/
theorem operatorFrom_echoes (left : Expr) (p : Nat) : Echoes ctx (next >>= operatorFrom sub left p)
    (WrittenBehind ctx left) (fun _ => Looser)
    (fun T T' => precedenceAt T' = precedenceAt T ∧ ¬ PutBack (frontOf T')) := by
  refine .next operatorLayout (fun l hl' => ?_) fun _ _ _ _ => throw_ne_ok
  unfold operatorFrom operatorLayout
  cases hop : l.token.binaryOp? with
  | some op =>
      refine .inr ⟨op.token, by simp, fun l' hl' d v d' h => ?_, ?_⟩
      · rw [hl', binaryOp?_token]
        exact h
      · refine ((hsub p).front fun T T' _ => ⟨?_, ?_⟩).bind fun right P hright =>
          .pure (fun hsingle => ?_) fun _ _ h => h
        · simp only [contents, throughout_expr, throughout_append] at hsingle
          refine ⟨hsingle.2.1, " " ++ (op.text ++ " " ++ right.text), ?_, ?_⟩
          · simp [text, chunks, String.append_assoc]
          · exact ((prints_binary op).leads.append (hright.2 hsingle.2.2)).trails.of_eq rfl
              (by simp)
        · rw [precedenceAt_binary hop, precedenceAt_binary (binaryOp?_token op)]
        · intro hback
          have hnone := hback.1
          rw [frontOf_cons, binaryOp?_token] at hnone
          cases hnone
  | none =>
      dsimp only
      -- `IS` is no binary operator, so its reader is chosen by the keyword
      have hprinted : (Token.ofKeyword .is).binaryOp? = none :=
        binaryOp?_of_keyword (keyword?_ofKeyword .is) (by simp) (by simp)
      split
      · next his =>
        refine .inr ⟨.ofKeyword .is, by simp, fun l' hl' d v d' h => ?_, ?_⟩
        · rw [hl', hprinted, keyword?_ofKeyword]
          exact h
        · refine (parseIs_echoes left).front fun T T' _ => ⟨?_, ?_⟩
          · rw [precedenceAt_is his, precedenceAt_is (keyword?_ofKeyword .is)]
          · rintro ⟨-, hback⟩
            rw [frontOf_cons, keyword?_ofKeyword] at hback
            simp at hback
      · exact .inl fun _ _ _ _ => throw_ne_ok

/-- What an operator is printed as announces the same precedence as what was read. -/
theorem parseOperator_echoes (left : Expr) (p : Nat) : Echoes ctx (parseOperator sub left p)
    (WrittenBehind ctx left) (fun _ => Looser) (fun T T' => precedenceAt T' = precedenceAt T) := by
  -- three keywords are put back for the reader of ranges; any other operator is taken
  refine .split PutBack (fun c hB => ?_) (fun c hB => ?_)
    (.put_back (parseRange_echoes hsub hl left)) (operatorFrom_echoes hsub left p)
    (fun T T' hB h => ⟨(precedenceAt_of_shadows h).symm, ?_⟩) fun _ _ _ h => h
  · obtain ⟨hop, hk⟩ := hB
    rw [parseOperator, bind_run (next_run ctx c), bind_run (next_run ctx c)]
    rcases hk with hk | hk | hk <;> simp only [hop, hk]
  · rw [parseOperator, bind_run (next_run ctx c), bind_run (next_run ctx c), operatorFrom]
    cases hop : c.peek.token.binaryOp? with
    | some op => rfl
    | none =>
        refine congrArg (fun p : Parser Expr => p ctx c.next.2) ?_
        dsimp only
        split
        · next hk => rw [hk]
        · next hk => exact absurd ⟨hop, .inl hk⟩ hB
        · next hk => exact absurd ⟨hop, .inr (.inl hk)⟩ hB
        · next hk => exact absurd ⟨hop, .inr (.inr hk)⟩ hB
        · split
          · next hk => exact absurd hk ‹_›
          · rfl
  · obtain ⟨hop, hk⟩ := hB
    have hrole := h.front
    rw [← Token.binaryOp?_role, hrole, Token.binaryOp?_role] at hop
    rw [Token.keyword?_of_role hrole] at hk
    exact ⟨hop, hk⟩

/-! ## The loop -/

omit hd hsub hl in
/-- Looking for the precedence of what comes reads nothing. -/
theorem nextPrecedence_run (c : Cursor) :
    nextPrecedence ctx c = .ok (precedenceAt c.coming) c := by
  have hpeek : ∀ i, (c.peekNth i).token = c.coming.getD i .eof := fun i => by
    rw [peekNth_eq_rest, solidTokens_nthSolid, solidTokens_eq]
    rfl
  rw [nextPrecedence, bind_run (get_ok.mpr ⟨rfl, rfl⟩), hpeek, hpeek]
  rfl

/-- One more operator, if one that binds tighter than `m` stands in front.  A tree behind a sign
    has none. -/
theorem step_echoes (left : Expr) (hleft : WrittenAt ctx m left P) : Echoes ctx (do
    let next ← nextPrecedence
    if next ≤ m then return none
    some <$> parseOperator sub left next)
    (fun o P' => o.elim (P' = []) fun e => WrittenAt ctx m e (P ++ P'))
    (fun o => o.elim Looser fun _ => Looser) Looser := by
  -- the step is a choice on the precedence of what is ahead
  have hrun : ∀ {c : Cursor}, (do
      let next ← nextPrecedence
      if next ≤ m then return none
      some <$> parseOperator sub left next : Parser (Option Expr)) ctx c =
      (if precedenceAt c.coming ≤ m then return none
        else some <$> parseOperator sub left (precedenceAt c.coming) : Parser (Option Expr))
        ctx c :=
    bind_run (nextPrecedence_run _) _
  intro c o c' hoverrun hsource h
  rw [hrun] at h
  split at h
  · next hle =>
    obtain ⟨rfl, rfl⟩ := pure_ok.mp h
    -- the loop ends here, and so it does in front of anything that binds no tighter
    refine ⟨hoverrun, List.suffix_refl _, [], rfl, fun K hK => ⟨hK, fun d hd => ⟨d, ?_, hd⟩⟩⟩
    rw [hrun, if_pos]
    · rfl
    · rw [hd.coming]
      exact hK.precedence.trans hle
  · next hlt =>
    obtain ⟨e, he, rfl⟩ := map_ok.mp h
    obtain ⟨hoverrun', hrest, P', hP', hreplay⟩ :=
      parseOperator_echoes hsub hl left _ c e c' hoverrun hsource he
    refine ⟨hoverrun', hrest, P', ⟨fun hsign => ?_, fun hsingle => ?_⟩, fun K hK => ?_⟩
    · exact absurd ((precedenceAt_lt_sign _).le.trans hsign) hlt
    · obtain ⟨hsingle, s, htext, hs⟩ := hP' hsingle
      rw [htext]
      exact (hleft.2 hsingle).append hs
    · obtain ⟨hahead, hrun'⟩ := hreplay K hK
      refine ⟨⟨hahead.le, .of_ends (endsPath_of_pos ?_)⟩, fun d hd => ?_⟩
      · omega
      · obtain ⟨d', hd', hfaces⟩ := hrun' d hd
        refine ⟨d', ?_, hfaces⟩
        rw [hrun, hd.coming, hahead, if_neg hlt]
        exact map_ok.mpr ⟨e, hd', rfl⟩

end

/-- By induction on the levels of nesting. -/
theorem parseAt_echoes (depth m : Nat) :
    Echoes ctx (parseAt depth m) (WrittenAt ctx m) (fun _ => Looser) StartsAlike := by
  induction depth generalizing ctx m with
  | zero => exact .throw _
  | succ depth ih =>
      refine .descend fun levels => .print (F := WrittenAt { ctx with depth := levels } m) ?_
        fun e P h => ⟨h.1, fun hsingle => (h.2 hsingle).of_depth⟩
      have : Fact ({ ctx with depth := levels }.dialect ∈ Dialect.builtin) := hd
      have hl : ∀ n, Local (Follow StatementEnd) (parseAt depth n) := fun n =>
        (parseAt_reads depth n).isLocal
      have hshort : Shortens (fun left => do
          let next ← nextPrecedence
          if next ≤ m then return none
          some <$> parseOperator (parseAt depth) left next) :=
        shortens_of (R := Follow StatementEnd) fun left =>
          .bind_right nextPrecedence_local fun next => .ite (.pure (by simp))
            (.map (parseOperator_reads hl left next).any)
      exact (parseOperand_echoes (fun n => ih n) hl).bind fun operand P hoperand =>
        .iterate hshort (fun left P hleft => step_echoes (fun n => ih n) hl left hleft)
          ⟨fun _ => hoperand.1, hoperand.2⟩

/-- An expression is read from its text as it was read. -/
theorem parse_echoes : Echoes ctx parse (fun e P => Written ctx e.contents e.text P)
    (fun _ => Looser) StartsAlike :=
  .remaining <| (parseAt_echoes _ 0).print fun _ _ h => h.2

/-- An expression in parentheses. -/
theorem enclosed_echoes : Echoes ctx (parenthesized Expr.parse)
    (fun e P => ∃ P', P = .lparen :: (P' ++ [.rparen]) ∧ Written ctx e.contents e.text P')
    (fun _ => Anything) (Shadows n) :=
  (Echoes.parenthesized (S := Anything) (parse_echoes.mono (fun _ _ h => h)
    (fun _ _ _ => Looser.of_facing_rparen) fun _ _ _ => trivial)).print
      fun _ _ ⟨P', he, hP⟩ => ⟨P', hP, he⟩

end Expr

end SchemaSql
