import FourFunction.Console.Command
import FourFunction.Proofs.ExpressionLanguage
import FourFunction.Proofs.JsonComposite

/-!
# Tokens written and read

A list of tokens is read back from its text if its numbers are finite and read back as they were
written.  The scanner gives finite numbers only, so the listing of the tokens of a text can take the
place of the text (`tokens_roundTrip`).
-/

namespace FourFunction

open Json

/-! ### One token -/

theorem Operator.read_name (op : Operator) (rest : List Char) :
    Operator.read ((quote op.name).toList ++ rest) = .ok (op, rest) := by
  have hnamed : (Operator.all.map fun op => Alternative.constant op.name op).find?
      (·.name == op.name) = some (.constant op.name op) := by
    cases op <;> rfl
  exact readChoice_quote hnamed rfl rest

namespace Token

/-- The token that is read where this one was written. -/
def reread : Token → Token
  | number x => number (Json.reread x)
  | operator op => operator op

theorem read_toJson {token : Token} (h : token.isNonFinite = false) (rest : List Char) :
    read (token.toJson.toList ++ rest) = .ok (token.reread, rest) := by
  cases token with
  | number x =>
    have hx : x.isFinite = true := by simpa [isNonFinite] using h
    have hread := readNumber_number hx (ends_cons (c := '\x7d') (by decide) rest)
    refine readChoice_object rfl ?_
    simp only [Alternative.holding, hread, map_ok, reread]
  | operator op =>
    have hread := op.read_name ('\x7d' :: rest)
    refine readChoice_object rfl ?_
    simp only [Alternative.holding, hread, map_ok, reread]

/-- An infinity or a NaN is refused where its number should stand. -/
theorem read_toJson_error {token : Token} (h : token.isNonFinite = true) (rest : List Char) :
    read (token.toJson.toList ++ rest) = .error .mismatch := by
  cases token with
  | number x =>
    have hx : Json.number x = "null" := number_eq_null_iff.2 (by simpa [isNonFinite] using h)
    have hread := readNumber_null ('\x7d' :: rest)
    refine readChoice_object_error rfl ?_
    simp only [Alternative.holding, hx, hread, map_error]
  | operator op => cases h

theorem exists_toList_toJson (token : Token) :
    ∃ c s, token.toJson.toList = c :: s ∧ isGap c = false ∧ c ≠ ']' := by
  cases token with
  | number x | operator op => exact exists_toList_object _

theorem reads_toJson {token : Token} (h : token.isNonFinite = false) :
    Reads read token.toJson token.reread where
  read := fun rest _ => read_toJson h rest
  start := token.exists_toList_toJson

theorem map_reread {tokens : List Token}
    (hread : ∀ x, .number x ∈ tokens → Json.reread x = x) : tokens.map reread = tokens := by
  have htoken : ∀ token ∈ tokens, token.reread = token := by
    intro token htoken
    cases token with
    | number x => exact congrArg number (hread x htoken)
    | operator op => rfl
  rw [List.map_congr_left htoken, List.map_id']

end Token

/-! ### Lists of tokens -/

theorem readList_tokensToJson {tokens : List Token}
    (hfinite : ∀ token ∈ tokens, token.isNonFinite = false) (rest : List Char) :
    readList Token.read ((tokensToJson tokens).toList ++ rest) =
      .ok (tokens.map Token.reread, rest) :=
  readList_array (fun token htoken => Token.reads_toJson (hfinite token htoken)) rest

theorem tokensOfJson_tokensToJson {tokens : List Token}
    (hfinite : ∀ token ∈ tokens, token.isNonFinite = false) :
    tokensOfJson (tokensToJson tokens) = .ok (tokens.map Token.reread) ∧
      tokensOfJson ((tokensToJson tokens).push '\n') = .ok (tokens.map Token.reread) :=
  parse_text_line fun rest _ => readList_tokensToJson hfinite rest

theorem tokensOfJson_tokensToJson_error {tokens : List Token}
    (hinfinite : ∃ token ∈ tokens, token.isNonFinite = true) :
    tokensOfJson (tokensToJson tokens) = .error .mismatch := by
  have hread := readList_array_refused (fun token => !token.isNonFinite)
    (fun _ h => Token.reads_toJson (by simpa using h))
    (fun _ h => Token.read_toJson_error (by simpa using h)) Token.exists_toList_toJson
    (by simpa using hinfinite) []
  rw [List.append_nil] at hread
  rw [tokensOfJson, parse, tokensToJson, hread]
  rfl

theorem forall_isNonFinite_iff {tokens : List Token} :
    (∀ token ∈ tokens, token.isNonFinite = false) ↔
      ∀ x, Token.number x ∈ tokens → x.isFinite = true := by
  constructor
  · intro h x hx
    simpa [Token.isNonFinite] using h _ hx
  · intro h token htoken
    cases token with
    | number x => simpa [Token.isNonFinite] using h x htoken
    | operator op => rfl

/-- If each number is read back as it was written, a list of tokens is read back exactly if its
numbers are finite; otherwise it is refused.  The listing of a text evaluates to what the text does.
-/
theorem tokens_roundTrip :
    (∀ tokens : List Token,
      ((∀ x, .number x ∈ tokens → Json.reread x = x) →
        (tokensOfJson (tokensToJson tokens) = .ok tokens ↔
          ∀ x, .number x ∈ tokens → x.isFinite = true)) ∧
      ((∃ x, .number x ∈ tokens ∧ x.isFinite = false) →
        tokensOfJson (tokensToJson tokens) = .error .mismatch)) ∧
    ∀ (colored : Bool) (text : String) (tokens : List Token), tokenize text = .ok tokens →
      (∀ x, .number x ∈ tokens → Json.reread x = x) →
      ∃ document, Command.tokens ⟨.json, colored⟩ text = ⟨document.push '\n', none⟩ ∧
        tokensOfJson document = .ok tokens ∧ tokensOfJson (document.push '\n') = .ok tokens ∧
        evaluate tokens = evaluateText text := by
  have hrefused : ∀ tokens : List Token, (∃ x, .number x ∈ tokens ∧ x.isFinite = false) →
      tokensOfJson (tokensToJson tokens) = .error .mismatch := by
    rintro tokens ⟨x, hmem, hx⟩
    exact tokensOfJson_tokensToJson_error ⟨_, hmem, by simp [Token.isNonFinite, hx]⟩
  refine ⟨fun tokens => ⟨fun hread => ⟨fun h => ?_, fun h => ?_⟩, hrefused tokens⟩, ?_⟩
  · -- a list that is read back is not refused
    intro x hmem
    by_contra hx
    have herror := hrefused tokens ⟨x, hmem, by simpa using hx⟩
    rw [h] at herror
    cases herror
  · rw [(tokensOfJson_tokensToJson (forall_isNonFinite_iff.2 h)).1, Token.map_reread hread]
  · intro colored text tokens htokens hread
    have hfinite : ∀ token ∈ tokens, token.isNonFinite = false :=
      isNonFinite_of_lexPieces (tokenize_eq_lexPieces text ▸ htokens)
    obtain ⟨hdocument, hline⟩ := tokensOfJson_tokensToJson hfinite
    rw [Token.map_reread hread] at hdocument hline
    have hvalue := evaluateText_of_tokenize_eq_ok htokens
    refine ⟨tokensToJson tokens, ?_, hdocument, hline, hvalue.symm⟩
    rw [Command.tokens, htokens]
    rfl

def smallTokens : List Token :=
  [.number (.ofBits 0x8000000000000000), .operator .sub, .operator .div, .number (.ofBits 1)]

theorem tokens_roundTrip_small :
    tokensOfJson (tokensToJson smallTokens) = .ok smallTokens ∧
    tokensOfJson (tokensToJson (.number .nan :: smallTokens)) = .error .mismatch ∧
    ∃ document, Command.tokens ⟨.json, true⟩ "0.1/0" = ⟨document.push '\n', none⟩ ∧
      ∃ tokens, tokensOfJson document = .ok tokens ∧ evaluate tokens = .error .divisionByZero := by
  have hsmall : ∀ x, .number x ∈ smallTokens → x.isFinite = true ∧ Json.reread x = x := by
    intro x hx
    simp only [smallTokens, List.mem_cons, List.not_mem_nil, or_false, Token.number.injEq,
      reduceCtorEq, false_or] at hx
    obtain rfl | rfl := hx <;> decide +kernel
  have htokens : tokenize "0.1/0" = .ok [.number (.ofBits 0x3fb999999999999a), .operator .div,
      .number (.ofBits 0)] := by
    decide +kernel
  have hread : ∀ x, .number x ∈ [.number (.ofBits 0x3fb999999999999a), .operator .div,
      Token.number (.ofBits 0)] → Json.reread x = x := by
    intro x hx
    simp only [List.mem_cons, List.not_mem_nil, or_false, Token.number.injEq, reduceCtorEq,
      false_or] at hx
    obtain rfl | rfl := hx <;> decide +kernel
  have hvalue : evaluateText "0.1/0" = .error .divisionByZero := by decide +kernel
  obtain ⟨hlists, htexts⟩ := tokens_roundTrip
  obtain ⟨document, houtput, hdocument, -, hevaluate⟩ := htexts true _ _ htokens hread
  have hexact := (hlists smallTokens).1 fun x hx => (hsmall x hx).2
  exact ⟨hexact.2 fun x hx => (hsmall x hx).1, (hlists _).2 ⟨.nan, List.mem_cons_self, rfl⟩,
    document, houtput, _, hdocument, hevaluate.trans hvalue⟩

end FourFunction
