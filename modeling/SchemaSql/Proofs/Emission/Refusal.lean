import SchemaSql.Proofs.Emission.Statements
import SchemaSql.Proofs.Passes

/-! # Refusal — what a sink that fails has seen

    A sink is offered the pieces of a statement one after the other until it refuses one, so
    what it was offered is a prefix of them.  The route:

    * `Statement.writeTo_eq` — writing a statement is a pass of its pieces, and those make up
      its text;
    * `Sink.logged` keeps what a sink was offered, and `Pass.taken_or_stopped` says how a pass
      ends;
    * `Limited.sink_pass` — a sink of limited size ends up with as much of any pieces as it has
      room for;
    * `Statement.writeTo_prefix` puts the three together. -/

namespace SchemaSql

open Text

variable {σ : Type}

namespace Text

namespace Sink

/-- The same sink, which also keeps the pieces it was offered. -/
def logged (sink : Sink σ) : Sink (σ × List String) where
  write := fun (state, offered) piece =>
    (((sink.write state piece).1, offered ++ [piece]), (sink.write state piece).2)

/-- A sink that logs what it takes is the sink, watched. -/
theorem put_logged (sink : Sink σ) : sink.logged.put = Pass.watched sink.put := by
  funext piece (state, offered)
  simp only [put, logged, Pass.watched]
  rcases sink.write state piece with ⟨next, _ | _⟩ <;> rfl

/-- A step that ends a pass is a refusal. -/
theorem put_error {sink : Sink σ} {piece : String} {state last : σ} {e : Unit}
    (h : sink.put piece state = .error e last) : sink.write state piece = (last, false) := by
  unfold put at h
  split at h
  · exact nomatch h
  · next hwrite =>
      cases h
      exact hwrite

/-- A tape is given everything, and keeps it. -/
theorem tape_pass (pieces seen : List String) :
    pieces.forM tape.put seen = .ok () (seen ++ pieces) := by
  induction pieces generalizing seen with
  | nil => rw [List.append_nil]; rfl
  | cons piece rest ih =>
      show rest.forM tape.put (seen ++ [piece]) = _
      rw [ih, List.append_assoc]
      rfl

end Sink

/-- What a sink of limited size holds behind a pass: the text as far as there is room. -/
theorem Limited.sink_pass (pieces : Chunks) (held : String) (n : Nat) :
    pieces.forM Limited.sink.put ⟨held, n⟩ =
      if pieces.text.length ≤ n then .ok () ⟨held ++ pieces.text, n - pieces.text.length⟩
      else .error () ⟨held ++ String.ofList (pieces.text.toList.take n), 0⟩ := by
  induction pieces generalizing held n with
  | nil =>
      show EStateM.Result.ok () _ = _
      simp
  | cons piece rest ih =>
      show EStateM.bind (Limited.sink.put piece) (fun _ => rest.forM Limited.sink.put) _ = _
      rw [Chunks.text_cons, String.length_append, String.toList_append]
      -- the piece is taken and the room shrinks, or the room ends inside of it
      by_cases hfits : piece.length ≤ n
      · have hstep : Limited.sink.put piece ⟨held, n⟩ =
            .ok () ⟨held ++ piece, n - piece.length⟩ := by
          simp only [Sink.put, Limited.sink, if_pos hfits]
        simp only [EStateM.bind, hstep]
        rw [ih, String.append_assoc, Nat.sub_sub]
        by_cases hrest : (Chunks.text rest).length ≤ n - piece.length
        · rw [if_pos hrest, if_pos (by omega)]
        · -- the cut falls behind the piece
          have hcut : (piece.toList ++ (Chunks.text rest).toList).take n =
              piece.toList ++ (Chunks.text rest).toList.take (n - piece.length) := by
            rw [List.take_append, List.take_of_length_le hfits,
              String.length_toList]
          rw [if_neg hrest, if_neg (by omega), hcut, String.ofList_append, String.ofList_toList,
            String.append_assoc]
      · have hstep : Limited.sink.put piece ⟨held, n⟩ =
            .error () ⟨held ++ String.ofList (piece.toList.take n), 0⟩ := by
          simp only [Sink.put, Limited.sink, if_neg hfits]
        have hle : n ≤ piece.toList.length := by
          rw [String.length_toList]
          omega
        simp only [EStateM.bind, hstep]
        rw [if_neg (by omega), List.take_append_of_le_length hle]

end Text

namespace Statement

/-- Writing a statement is a pass of its pieces, and these make up its text. -/
theorem writeTo_eq (statement : Statement) :
    Chunks.text statement.pieces = statement.text ∧
      ∀ (m : Type → Type) [Monad m] [LawfulMonad m] (put : String → m Unit),
        statement.emit put = statement.pieces.forM put := by
  obtain ⟨pieces, htext, hemit⟩ := statement.emits
  have hpieces : statement.pieces = pieces := by
    simp only [Statement.pieces, Statement.writeTo, hemit, Sink.tape_pass, List.nil_append]
  exact hpieces ▸ ⟨htext, hemit⟩

/-- A sink is offered the pieces of a statement, which make up its text, up to the first one
    that it refuses; writing succeeds exactly when it refuses none.  A sink of limited size
    then holds as much of the text as it has room for. -/
theorem writeTo_prefix (statement : Statement) :
    (Chunks.text statement.pieces = statement.text ∧
      statement.writeTo .tape [] = (statement.pieces, true)) ∧
    (∀ {σ : Type} (sink : Sink σ) (state : σ),
      (∃ last, Pass.Takes sink.put statement.pieces state last ∧
        statement.writeTo sink state = (last, true) ∧
        statement.writeTo sink.logged (state, []) = ((last, statement.pieces), true)) ∨
      ∃ before piece after mid last, statement.pieces = before ++ piece :: after ∧
        Pass.Takes sink.put before state mid ∧ sink.write mid piece = (last, false) ∧
        statement.writeTo sink state = (last, false) ∧
        statement.writeTo sink.logged (state, []) = ((last, before ++ [piece]), false)) ∧
    ∀ n : Nat, statement.writeTo Limited.sink { room := n } =
      (⟨String.ofList (statement.text.toList.take n), n - statement.text.length⟩,
        decide (statement.text.length ≤ n)) := by
  obtain ⟨htext, hemit⟩ := statement.writeTo_eq
  refine ⟨⟨htext, ?_⟩, fun {σ} sink state => ?_, fun n => ?_⟩
  · simp only [Statement.writeTo, hemit, Sink.tape_pass, List.nil_append]
  -- the sink takes every piece, or refuses one behind a beginning that it took
  · rcases Pass.taken_or_stopped sink.put statement.pieces state with
      ⟨last, h⟩ | ⟨before, piece, after, mid, e, last, hsplit, h, hpiece⟩
    · refine .inl ⟨last, h, ?_, ?_⟩
      · simp only [Statement.writeTo, hemit, h.run]
      · simp only [Statement.writeTo, hemit, Sink.put_logged, Pass.watched_taken h,
          List.nil_append]
    · refine .inr ⟨before, piece, after, mid, last, hsplit, h, Sink.put_error hpiece, ?_, ?_⟩
      · simp only [Statement.writeTo, hemit, hsplit, h.stopped hpiece]
      · simp only [Statement.writeTo, hemit, Sink.put_logged, hsplit,
          Pass.watched_stopped h hpiece, List.nil_append]
  · have hpass := Limited.sink_pass statement.pieces "" n
    rw [htext, String.empty_append, String.empty_append] at hpass
    simp only [Statement.writeTo, hemit]
    by_cases hn : statement.text.length ≤ n
    · rw [if_pos hn] at hpass
      have hall : statement.text.toList.take n = statement.text.toList :=
        List.take_of_length_le hn
      simp only [hpass, hall, String.ofList_toList, decide_eq_true hn]
    · rw [if_neg hn] at hpass
      have hroom : n - statement.text.length = 0 := by omega
      simp only [hpass, hroom, decide_eq_false hn]

end Statement

end SchemaSql
