import FourFunction.Proofs.Pieces

/-!
# Texts one behind the other

Where no run of digits and points goes on from one text to the next, the two are scanned
independently (`tokenize_append`).
-/

namespace FourFunction

theorem lexPieces_append (ps qs : List (List Char)) :
    lexPieces (ps ++ qs) =
      lexPieces ps >>= fun tokens =>
        ((lexPieces qs).map (tokens ++ ·)).mapError (·.shifted ps.flatten.length) := by
  induction ps with
  | nil =>
    have hnil : lexPieces [] = .ok [] := rfl
    rw [hnil, ok_bind, List.nil_append]
    cases lexPieces qs <;> simp
  | cons piece ps ih =>
    rw [List.cons_append]
    cases hfault : pieceFault? piece with
    | some e => rw [lexPieces_cons_of_fault hfault, lexPieces_cons_of_fault hfault, error_bind]
    | none =>
      rw [lexPieces_cons hfault, lexPieces_cons hfault, ih, List.flatten_cons, List.length_append]
      cases lexPieces ps with
      | error e => rfl
      | ok tokens =>
        cases lexPieces qs with
        | ok more => simp
        | error e => simp [LexError.shifted_shifted, Nat.add_comm]

/-- Texts are scanned one behind the other if no run goes on from the first to the second. -/
theorem tokenize_append {s t : String}
    (h : ∀ a ∈ s.toList.getLast?, ∀ b ∈ t.toList.head?,
      (startsNumber a && startsNumber b) = false) :
    tokenize (s ++ t) =
      tokenize s >>= fun tokens =>
        ((tokenize t).map (tokens ++ ·)).mapError (·.shifted s.length) := by
  simp only [tokenize_eq_lexPieces]
  rw [String.toList_append, pieces_append h, lexPieces_append, flatten_pieces, String.length_toList]

/-- No run goes on into a text that starts with an operator, nor behind the end of a text. -/
theorem tokenize_append_of_operator (s : String) {t : String}
    (ht : ∀ c ∈ t.toList.head?, ∃ op : Operator, c = op.symbol) :
    tokenize (s ++ t) =
      tokenize s >>= fun tokens =>
        ((tokenize t).map (tokens ++ ·)).mapError (·.shifted s.length) := by
  refine tokenize_append fun a _ b hb => ?_
  obtain ⟨op, rfl⟩ := ht b hb
  cases op <;> exact Bool.and_false _

theorem exists_tokens_of_operator {op : Operator} {s : List Char} {tokens : List Token}
    (h : tokenize (String.ofList (op.symbol :: s)) = .ok tokens) :
    ∃ rest, tokens = .operator op :: rest := by
  rw [tokenize_eq_lexPieces, String.toList_ofList, lexPieces_symbol_cons, mapError_eq_ok_iff,
    map_eq_ok_iff] at h
  obtain ⟨rest, -, rfl⟩ := h
  exact ⟨rest, rfl⟩

end FourFunction
