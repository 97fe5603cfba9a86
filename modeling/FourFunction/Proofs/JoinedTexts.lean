import FourFunction.Console.Arguments
import FourFunction.Proofs.Concatenation
import FourFunction.Proofs.ExpressionLanguage
import FourFunction.Proofs.SessionState

/-!
# Joined texts

Blanks where no run of digits and points goes on move the later objections and change nothing else,
so texts joined with spaces have the tokens of the texts (`tokenize_intercalate`).
-/

namespace FourFunction

/-- Whether no run of digits and points goes on from one text to the other. -/
def Separated (s t : String) : Prop :=
  ∀ a ∈ s.toList.getLast?, ∀ b ∈ t.toList.head?, (startsNumber a && startsNumber b) = false

/-! ### Blanks between texts -/

theorem tokenize_blanks_append {blanks : String} (hblanks : ∀ c ∈ blanks.toList, isBlank c = true)
    (t : String) :
    tokenize (blanks ++ t) = (tokenize t).mapError (·.shifted blanks.length) := by
  simp only [tokenize_eq_lexPieces]
  rw [String.toList_append, lexPieces_pieces_blanks hblanks, String.length_toList]

theorem separated_blanks_append {s blanks t : String}
    (hblanks : ∀ c ∈ blanks.toList, isBlank c = true) (h : blanks ≠ "" ∨ Separated s t) :
    Separated s (blanks ++ t) := by
  intro a ha b hb
  rw [String.toList_append] at hb
  cases hlist : blanks.toList with
  | nil =>
    rw [hlist, List.nil_append] at hb
    obtain hne | hseparated := h
    · exact absurd (String.toList_inj.1 hlist) hne
    · exact hseparated a ha b hb
  | cons c cs =>
    rw [hlist] at hb hblanks
    obtain rfl : c = b := by simpa using hb
    rw [startsNumber_of_isBlank (hblanks c List.mem_cons_self), Bool.and_false]

theorem tokenize_append_blanks_append {s blanks t : String}
    (hblanks : ∀ c ∈ blanks.toList, isBlank c = true) (h : blanks ≠ "" ∨ Separated s t) :
    tokenize (s ++ (blanks ++ t)) =
      tokenize s >>= fun tokens =>
        ((tokenize t).map (tokens ++ ·)).mapError (·.shifted (s.length + blanks.length)) := by
  rw [tokenize_append (separated_blanks_append hblanks h), tokenize_blanks_append hblanks]
  congr 1
  funext tokens
  cases tokenize t with
  | ok more => rfl
  | error e => simp [LexError.shifted_shifted, Nat.add_comm]

/-- The tokens of texts, with places counted from the front of the texts joined with spaces. -/
def tokenizeAll : List String → Except LexError (List Token)
  | [] => .ok []
  | text :: rest =>
    tokenize text >>= fun tokens =>
      ((tokenizeAll rest).map (tokens ++ ·)).mapError (·.shifted (text.length + 1))

theorem tokenize_empty : tokenize "" = .ok [] := by
  rw [tokenize_eq_lexPieces]
  rfl

theorem tokenize_intercalate (texts : List String) :
    tokenize (" ".intercalate texts) = tokenizeAll texts := by
  induction texts with
  | nil => rw [String.intercalate_nil, tokenize_empty, tokenizeAll]
  | cons text rest ih =>
    cases rest with
    | nil =>
      rw [String.intercalate_singleton, tokenizeAll]
      cases tokenize text with
      | error e => rfl
      | ok tokens => simp [tokenizeAll]
    | cons next rest =>
      have hspace : ∀ c ∈ " ".toList, isBlank c = true := by simp [isBlank]
      have hne : " " ≠ "" := by decide
      rw [String.intercalate_cons_cons, String.append_assoc,
        tokenize_append_blanks_append hspace (.inl hne), ih, tokenizeAll]
      rfl

end FourFunction
