import FourFunction.Console.Command
import FourFunction.Proofs.ExpressionLanguage
import FourFunction.Proofs.JoinedTexts
import FourFunction.Proofs.TypedNumeral

/-!
# Printed tokens

The text of an operator, or of a finite number with a clear sign, is scanned as that token alone.
The scanner gives no other tokens, so the listing of the tokens of a text can be scanned in place of
the text (`tokenize_printed`).
-/

namespace FourFunction

/-! ### Tokens without a minus sign -/

def Token.IsUnsigned : Token → Prop
  | number x => ∃ r, x = .finite false r
  | operator _ => True

theorem Token.isUnsigned_of_mem_texts {token : Token} {piece : List Char}
    (h : piece ∈ token.texts) : token.IsUnsigned := by
  cases token with
  | operator op => trivial
  | number x =>
    obtain ⟨hliteral, hread, hfinite⟩ := h
    obtain ⟨hrun, hdigit, -⟩ := mem_literals_iff_count.1 hliteral
    have hne : piece ≠ [] := by
      rintro rfl
      cases hdigit
    have hhead : ∀ c ∈ piece.head?, c.isDigit = true ∨ c = '.' := fun c hc => by
      simpa [startsNumber] using hrun c (List.mem_of_mem_head? hc)
    have hnumeral := Binary64.ofText?_ofList false hhead hne
    rw [signed, if_neg Bool.false_ne_true, hread] at hnumeral
    obtain ⟨d, -, rfl⟩ := Option.map_eq_some_iff.1 hnumeral.symm
    rw [Decimal.toBinary64, Binary64.isFinite_ofRank] at hfinite
    exact ⟨⟨d.nearestRank, hfinite⟩, dif_pos hfinite⟩

/-- The scanner gives no number with a minus sign. -/
theorem isUnsigned_of_lexPieces {s : List Char} {tokens : List Token}
    (h : lexPieces (pieces s) = .ok tokens) : ∀ token ∈ tokens, token.IsUnsigned := by
  induction tokens generalizing s with
  | nil => simp
  | cons token tokens ih =>
    obtain ⟨_, piece, rest, -, -, hpiece, hrest⟩ := exists_texts_of_lexPieces_eq_cons h
    exact List.forall_mem_cons.2 ⟨Token.isUnsigned_of_mem_texts hpiece, ih hrest⟩

/-! ### The text of one token -/

theorem tokenize_of_mem_texts {token : Token} {piece : List Char} (h : piece ∈ token.texts) :
    tokenize (String.ofList piece) = .ok [token] := by
  have hblanks : ([] : List Char) ∈ blankRuns := fun c hc => absurd hc List.not_mem_nil
  have hlex := lexPieces_texts_append hblanks h (s := []) (.inr (by simp)) rfl
  rwa [List.nil_append, List.append_nil, ← String.toList_ofList (l := piece),
    ← tokenize_eq_lexPieces] at hlex

/-- A numeral without sign and exponent stands for its number. -/
theorem mem_texts_of_wellFormed {whole fraction : List Char}
    (hn : (⟨false, whole, fraction, none⟩ : Json.Numeral).WellFormed) {x : Binary64}
    (hvalue : (⟨false, whole, fraction, none⟩ : Json.Numeral).value = x)
    (hfinite : x.isFinite = true) :
    whole ++ Decimal.pointed fraction ∈ (Token.number x).texts := by
  have hread := Json.Numeral.ofText?_text hn
  rw [hvalue, Json.Numeral.text, Json.Numeral.exponentText, Option.elim_none, List.append_nil,
    signed, if_neg Bool.false_ne_true] at hread
  obtain ⟨hne, hwhole, hfraction, -⟩ := hn
  refine ⟨mem_literals_iff.2 ?_, hread, hfinite⟩
  unfold Decimal.pointed
  split_ifs
  · rw [List.append_nil]
    exact .inl ⟨hwhole, hne⟩
  · exact .inr ⟨whole, fraction, hwhole, hfraction, .inl hne, rfl⟩

theorem Token.text_mem_texts {token : Token} (h : token.IsUnsigned) :
    token.text.toList ∈ token.texts := by
  cases token with
  | operator op =>
    rw [text, Char.toString, String.toList_singleton]
    rfl
  | number x =>
    obtain ⟨r, rfl⟩ := h
    obtain ⟨whole, fraction, hn, hplain, -, hvalue⟩ :=
      (Decimal.shortest .up r).exists_numeral_plain false
    rw [Decimal.toBinary64_shortest, Binary64.ofRank_val] at hvalue
    have hfinite : (Binary64.finite false r).isFinite = true := Binary64.isFinite_iff.2 ⟨_, _, rfl⟩
    have hmem := mem_texts_of_wellFormed hn hvalue hfinite
    have htext : (number (.finite false r)).text.toList = (Decimal.shortest .up r).plain := by
      simp only [text, Binary64.plainText, signed, Bool.false_eq_true, if_false,
        String.toList_ofList]
    rwa [htext, hplain]

theorem Token.tokenize_text {token : Token} (h : token.IsUnsigned) :
    tokenize token.text = .ok [token] := by
  have htokens := tokenize_of_mem_texts (text_mem_texts h)
  rwa [String.ofList_toList] at htokens

/-! ### The texts of many tokens -/

/-- The texts of tokens are scanned as the tokens if there are spaces between them. -/
theorem tokenize_intercalate_text {tokens : List Token} (h : ∀ token ∈ tokens, token.IsUnsigned) :
    tokenize (" ".intercalate (tokens.map Token.text)) = .ok tokens := by
  rw [tokenize_intercalate]
  induction tokens with
  | nil => rfl
  | cons token tokens ih =>
    obtain ⟨htoken, htokens⟩ := List.forall_mem_cons.1 h
    rw [List.map_cons, tokenizeAll, Token.tokenize_text htoken, ok_bind, ih htokens]
    rfl

/-! ### Listings -/

/-- The texts in a listing follow the kinds of the tokens, in a column of nine characters. -/
def listedTexts (listing : String) : List String :=
  (listing.toList.splitOn '\n').dropLast.map fun line => String.ofList (line.drop 9)

theorem newline_notMem_tokenLine {token : Token} (h : token.IsUnsigned) :
    '\n' ∉ (Printer.tokenLine token).toList := by
  cases token with
  | operator op => cases op <;> decide
  | number x =>
    obtain ⟨hliteral, -⟩ := Token.text_mem_texts h
    obtain ⟨hrun, -⟩ := mem_literals_iff_count.1 hliteral
    rw [Printer.tokenLine, String.toList_append, List.mem_append, not_or]
    refine ⟨by decide, fun hmem => ?_⟩
    exact absurd (hrun _ hmem) (by decide)

theorem drop_tokenLine (token : Token) :
    String.ofList ((Printer.tokenLine token).toList.drop 9) = token.text := by
  cases token with
  | number x =>
    have hcolumn : "number   ".toList.length = 9 := rfl
    rw [Printer.tokenLine, String.toList_append, List.drop_left' hcolumn, String.ofList_toList]
    rfl
  | operator op => cases op <;> rfl

/-- The lines of a listing, with nothing behind the last line feed. -/
theorem splitOn_listing {lines : List (List Char)} (hne : lines ≠ [])
    (hlines : ∀ line ∈ lines, '\n' ∉ line) :
    (['\n'].intercalate lines ++ ['\n']).splitOn '\n' = lines ++ [[]] := by
  have hlisting : ['\n'].intercalate lines ++ ['\n'] = ['\n'].intercalate (lines ++ [[]]) := by
    induction lines with
    | nil => exact absurd rfl hne
    | cons line lines ih =>
      cases lines with
      | nil => simp [List.intercalate]
      | cons next lines =>
        have ih := ih (by simp) (List.forall_mem_cons.1 hlines).2
        simp only [List.cons_append, List.intercalate_cons_cons, List.append_assoc] at ih ⊢
        rw [ih]
  rw [hlisting]
  refine List.splitOn_intercalate '\n' ?_ (by simp)
  rw [List.forall_mem_append, List.forall_mem_singleton]
  exact ⟨hlines, List.not_mem_nil⟩

theorem listedTexts_listing {tokens : List Token} (hne : tokens ≠ [])
    (h : ∀ token ∈ tokens, token.IsUnsigned) :
    listedTexts (("\n".intercalate (tokens.map Printer.tokenLine)).push '\n') =
      tokens.map Token.text := by
  have hlines : ∀ line ∈ tokens.map (String.toList ∘ Printer.tokenLine), '\n' ∉ line := by
    simp only [List.forall_mem_map]
    exact fun token htoken => newline_notMem_tokenLine (h token htoken)
  have hnewline : "\n".toList = ['\n'] := rfl
  rw [listedTexts, String.toList_push, String.toList_intercalate, hnewline, List.map_map,
    splitOn_listing (by simpa using hne) hlines, List.dropLast_concat, List.map_map]
  exact List.map_congr_left fun token _ => drop_tokenLine token

theorem Command.tokens_eq_listing {text : String} {tokens : List Token}
    (h : tokenize text = .ok tokens) (colored : Bool) :
    ∃ listing, Command.tokens ⟨.text, colored⟩ text = ⟨listing, none⟩ ∧
      tokenize (" ".intercalate (listedTexts listing)) = .ok tokens := by
  refine ⟨("\n".intercalate (tokens.map Printer.tokenLine)).push '\n', ?_, ?_⟩
  · rw [Command.tokens, h]
    rfl
  · by_cases hne : tokens = []
    · have hlisted : listedTexts (("\n".intercalate (([] : List Token).map Printer.tokenLine)).push
          '\n') = [""] := rfl
      rw [hne, hlisted]
      exact tokenize_empty
    · have hunsigned : ∀ token ∈ tokens, token.IsUnsigned := by
        rw [tokenize_eq_lexPieces] at h
        exact isUnsigned_of_lexPieces h
      rw [listedTexts_listing hne hunsigned, tokenize_intercalate_text hunsigned]

/-- The texts of tokens, joined with spaces, are scanned and evaluated as the tokens; the listing of
the tokens of a text is scanned as these tokens. -/
theorem tokenize_printed :
    (∀ tokens : List Token,
      (∀ x, .number x ∈ tokens → ∃ r, x = .finite false r) →
        tokenize (" ".intercalate (tokens.map Token.text)) = .ok tokens ∧
          evaluateText (" ".intercalate (tokens.map Token.text)) = evaluate tokens) ∧
    ∀ (colored : Bool) (text : String) (tokens : List Token), tokenize text = .ok tokens →
      ∃ listing, Command.tokens ⟨.text, colored⟩ text = ⟨listing, none⟩ ∧
        tokenize (" ".intercalate (listedTexts listing)) = .ok tokens := by
  refine ⟨fun tokens h => ?_, fun colored text tokens h => Command.tokens_eq_listing h colored⟩
  have hunsigned : ∀ token ∈ tokens, token.IsUnsigned := by
    intro token htoken
    cases token with
    | number x => exact h x htoken
    | operator op => trivial
  have htokens := tokenize_intercalate_text hunsigned
  exact ⟨htokens, evaluateText_of_tokenize_eq_ok htokens⟩

/-- The least and the largest positive number side by side, and a text without spaces. -/
theorem tokenize_printed_extremes :
    let tokens : List Token := [.number (.ofBits 1), .number (.ofBits 0x7fefffffffffffff),
      .operator .sub, .operator .mul]
    (tokenize (" ".intercalate (tokens.map Token.text)) = .ok tokens ∧
      evaluateText (" ".intercalate (tokens.map Token.text)) =
        .error (.structural (.adjacentNumbers 1))) ∧
    Command.tokens ⟨.text, false⟩ ".50--2." =
      ⟨"number   0.5\noperator -\noperator -\nnumber   2\n", none⟩ ∧
    tokenize "0.5 - - 2" =
      .ok [.number (.ofBits 0x3fe0000000000000), .operator .sub, .operator .sub,
        .number (.ofBits 0x4000000000000000)] := by
  obtain ⟨hprinted, hlisted⟩ := tokenize_printed
  intro tokens
  have hunsigned : ∀ x, .number x ∈ tokens → ∃ r, x = .finite false r := by
    intro x hx
    have hbits : x = .ofBits 1 ∨ x = .ofBits 0x7fefffffffffffff := by simpa [tokens] using hx
    obtain rfl | rfl := hbits
    · exact ⟨⟨1, by decide⟩, by decide +kernel⟩
    · exact ⟨⟨Binary64.ranks - 1, by decide⟩, by decide +kernel⟩
  have hevaluate : evaluate tokens = .error (.structural (.adjacentNumbers 1)) := by decide +kernel
  have hlisting : Command.tokens ⟨.text, false⟩ ".50--2." =
      ⟨"number   0.5\noperator -\noperator -\nnumber   2\n", none⟩ := by decide +kernel
  have hscan : tokenize ".50--2." =
      .ok [.number (.ofBits 0x3fe0000000000000), .operator .sub, .operator .sub,
        .number (.ofBits 0x4000000000000000)] := by decide +kernel
  obtain ⟨htokens, hvalue⟩ := hprinted tokens hunsigned
  refine ⟨⟨htokens, hvalue.trans hevaluate⟩, hlisting, ?_⟩
  obtain ⟨listing, houtput, hread⟩ := hlisted false _ _ hscan
  obtain rfl := congrArg Outcome.output (houtput.symm.trans hlisting)
  have htexts : " ".intercalate (listedTexts
      "number   0.5\noperator -\noperator -\nnumber   2\n") = "0.5 - - 2" := by decide +kernel
  rwa [htexts] at hread

end FourFunction
