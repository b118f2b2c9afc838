import SchemaSql.Proofs.Denotation

/-! # Names — what the readers of names denote

    A part of a name is read from one token, a word or a string literal, and a name from the
    tokens of its parts with a period between two of them. -/

namespace SchemaSql

open SchemaSql.Parser Reading

variable {ctx : Context}

/-- The identifier that is read from a token. -/
def Token.Names (t : Token) (part : Ident) : Prop := Ident.ofToken { token := t } = some part

/-- Tokens with a period in front of each. -/
def dotted (ts : List Token) : List Token := ts.flatMap fun t => [.period, t]

@[simp] theorem dotted_nil : dotted [] = [] := rfl

@[simp] theorem dotted_cons (t : Token) (ts : List Token) :
    dotted (t :: ts) = .period :: t :: dotted ts := rfl

theorem mem_dotted {t : Token} {ts : List Token} (h : t ∈ ts) : t ∈ dotted ts :=
  List.mem_flatMap.mpr ⟨t, h, by simp⟩

theorem Ident.part_denotes (l : Located) :
    Denotes ctx (match ofToken l with
      | some part => pure part
      | none => expected "identifier" l) fun T part K => ofToken l = some part ∧ K = T := by
  cases ofToken l with
  | some part => exact (Denotes.pure part).congr fun _ _ _ _ => by simp [eq_comm]
  | none => exact (Denotes.fails (Fails.expected _ _)).congr fun _ _ _ _ => by simp

/-- An identifier is one token that names it. -/
theorem Ident.parse_denotes :
    Denotes ctx (parse false) fun T part K => ∃ t, T = t :: K ∧ t.Names part := by
  have hstart : ∀ l, hyphenStart false ctx.toSettings l = none := fun l => by
    unfold hyphenStart
    cases l.token <;> rfl
  rw [parse_eq]
  refine (Denotes.next (F := fun t T part K => t.Names part ∧ K = T) (fun l _ => ?_)
    (parse_eof false)).congr fun T part K _ => ?_
  · refine (part_denotes l).of_run fun c => ?_
    rw [bind_run (read_ok.mpr ⟨rfl, rfl⟩)]
    cases hl : hyphenStart false ctx.toSettings l with
    | some _ => cases (hstart l).symm.trans hl
    | none => rfl
  · constructor
    · rintro ⟨t, T', rfl, hpart, rfl⟩
      exact ⟨t, rfl, hpart⟩
    · rintro ⟨t, rfl, hpart⟩
      exact ⟨t, K, rfl, hpart, rfl⟩

namespace ObjectName

/-- Further parts are names behind periods, up to a token that is no period. -/
theorem parts_denotes : Denotes ctx
    (many do if ← accept .period then some <$> Ident.parse false else return none)
    fun T parts K => ∃ ts, T = dotted ts ++ K ∧ List.Forall₂ Token.Names ts parts ∧
      K.head? ≠ some .period := by
  have hpart : Denotes ctx (some <$> Ident.parse false) _ :=
    Ident.parse_denotes.map some fun _ _ _ => Iff.rfl
  have hitem := Denotes.accept_test .period (by simp) hpart (.pure none)
  refine (Denotes.many hitem (.item (R := Follow StatementEnd) (.accept (by simp [EndMark]))
    (Ident.parse_local false))).congr fun T parts K hproper => ?_
  clear hproper
  constructor
  · intro h
    induction h with
    | nil h =>
        rcases h with ⟨_, _, -, -, _, -, hcontra⟩ | ⟨hK, -, rfl⟩
        · cases hcontra
        · exact ⟨[], rfl, .nil, fun hhead => hK _ hhead rfl⟩
    | cons h _ ih =>
        rcases h with ⟨_, _, rfl, rfl, part, ⟨t, rfl, hpart⟩, heq⟩ | ⟨-, hcontra, -⟩
        · obtain rfl := Option.some.inj heq
          obtain ⟨ts, rfl, hparts, hK⟩ := ih
          exact ⟨t :: ts, rfl, .cons hpart hparts, hK⟩
        · cases hcontra
  · rintro ⟨ts, rfl, hparts, hK⟩
    induction hparts with
    | nil => exact .nil (.inr ⟨fun t ht heq => hK (heq ▸ ht), rfl, rfl⟩)
    | cons hpart _ ih =>
        exact .cons (.inl ⟨.period, _, rfl, rfl, _, ⟨_, rfl, hpart⟩, rfl⟩) ih

/-- A name is one token for each part, with periods between them. -/
theorem parse_denotes : Denotes ctx parse fun T name K => ∃ t ts, T = t :: (dotted ts ++ K) ∧
    List.Forall₂ Token.Names (t :: ts) name.parts ∧ K.head? ≠ some .period := by
  refine (Ident.parse_denotes.bind fun first => parts_denotes.bind fun rest =>
    Denotes.pure (⟨first :: rest⟩ : ObjectName)).congr fun T name K _ => ?_
  constructor
  · rintro ⟨first, _, ⟨t, rfl, hfirst⟩, rest, _, ⟨ts, rfl, hrest, hK⟩, rfl, rfl⟩
    exact ⟨t, ts, rfl, .cons hfirst hrest, hK⟩
  · rintro ⟨t, ts, rfl, hparts, hK⟩
    obtain ⟨parts⟩ := name
    cases hparts with
    | cons hfirst hrest =>
        exact ⟨_, _, ⟨t, rfl, hfirst⟩, _, _, ⟨ts, rfl, hrest, hK⟩, rfl, rfl⟩

end ObjectName

end SchemaSql
