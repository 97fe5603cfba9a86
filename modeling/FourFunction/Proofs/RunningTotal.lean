import FourFunction.Proofs.Concatenation
import FourFunction.Proofs.LinkFold
import FourFunction.Proofs.SessionState

/-!
# Running totals

The equals key may be pressed in front of an addition or a subtraction, or not: the outcome is the
same (`Session.evaluate_after_equals`), as what stands in front can be replaced by its value
(`evaluate_append`).
-/

namespace FourFunction

/-! ### Expressions -/

/-- A link of an additive operator is read alike behind an expression and behind its value. -/
theorem readLink_of_settle {apply : Arithmetic} {read : Pending × Binary64} {value : Binary64}
    {link : Link} (hop : link.1.isAdditive = true)
    (hsettle : settle apply read.1 read.2 = .ok value) :
    readLink apply read link = readLink apply (none, value) link := by
  rw [readLink, readLink, if_pos hop, if_pos hop, hsettle]
  rfl

theorem evaluateWith_chainTokens_append {apply : Arithmetic} {x value : Binary64}
    {links more : List Link} {link : Link} (hx : x.isFinite = true)
    (hlinks : ∀ link ∈ links, link.2.isFinite = true) (hvalue : value.isFinite = true)
    (hmore : ∀ link' ∈ link :: more, link'.2.isFinite = true) (hop : link.1.isAdditive = true)
    (hfront : evaluateWith apply (chainTokens x links) = .ok value) :
    evaluateWith apply (chainTokens x (links ++ link :: more)) =
      evaluateWith apply (chainTokens value (link :: more)) := by
  rw [evaluateWith_chainTokens _ hx hlinks, bind_eq_ok_iff] at hfront
  obtain ⟨read, hread, hsettle⟩ := hfront
  rw [evaluateWith_chainTokens _ hvalue hmore,
    evaluateWith_chainTokens _ hx (List.forall_mem_append.2 ⟨hlinks, hmore⟩), readLinks_append,
    hread, ok_bind, readLinks_cons, readLinks_cons, readLink_of_settle hop hsettle]

/-- In front of an additive operator, an expression can be replaced by its value. -/
theorem evaluate_append {front : List Token} {value : Binary64}
    (hfront : evaluate front = .ok value) {op : Operator} (hop : op.isAdditive = true)
    (rest : List Token) :
    (evaluate (front ++ .operator op :: rest)).mapError CalcError.kind =
      (evaluate (.number value :: .operator op :: rest)).mapError CalcError.kind := by
  have hvalue := isFinite_of_evaluate hfront
  obtain ⟨x, links, rfl, hx, hlinks⟩ :=
    checkArrangement_eq_ok_iff.1 (checkArrangement_of_evaluate hfront)
  have hlong : checkArrangement (chainTokens x links ++ .operator op :: rest) = .ok () ↔ _ :=
    checkArrangement_chainTokens_append_iff hx hlinks
  have hshort : checkArrangement (chainTokens value [] ++ .operator op :: rest) = .ok () ↔ _ :=
    checkArrangement_chainTokens_append_iff hvalue (by simp)
  by_cases hcheck : checkArrangement (chainTokens x links ++ .operator op :: rest) = .ok ()
  · obtain ⟨more, hmore, hfinite⟩ := hlong.1 hcheck
    cases more with
    | nil => cases hmore
    | cons link more =>
      obtain ⟨hlink, -⟩ := List.cons.inj hmore
      obtain rfl := Token.operator.inj hlink
      have hsame := evaluateWith_chainTokens_append hx hlinks hvalue hfinite hop hfront
      rw [← chainTokens_append, ← hmore] at hsame
      rw [evaluate, hsame, chainTokens, ← hmore, evaluate]
  · obtain ⟨reason, hreason⟩ := evaluate_of_rejected hcheck
    obtain ⟨reason', hreason'⟩ := evaluate_of_rejected (hshort.not.2 (hlong.not.1 hcheck))
    rw [hreason]
    exact (congrArg (Except.mapError CalcError.kind) hreason').symm

/-! ### Sessions -/

namespace Session

/-- A buffer that has a value stands for an expression of that value. -/
theorem exists_front_of_evaluateBuffer {buffer : String} {carry : Option Carry} {value : Binary64}
    (hle : ∀ c ∈ carry, c.length ≤ buffer.length)
    (h : evaluateBuffer buffer carry = .ok value) :
    ∃ front, FourFunction.evaluate front = .ok value ∧
      ∀ text : String, (∀ c ∈ text.toList.head?, ∃ op : Operator, c = op.symbol) →
        evaluateBuffer (buffer ++ text) carry =
          ((tokenize text).mapError fun e => .lexical (e.shifted buffer.length)) >>=
            fun tokens => FourFunction.evaluate (front ++ tokens) := by
  cases carry with
  | none =>
    obtain ⟨front, hfront, hvalue⟩ := bind_eq_ok_iff.1 h
    refine ⟨front, hvalue, fun text htext => ?_⟩
    rw [evaluateBuffer, evaluateText, tokenize_append_of_operator buffer htext,
      mapError_eq_ok_iff.1 hfront, ok_bind]
    cases tokenize text <;> rfl
  | some carry =>
    obtain ⟨tokens, htokens, hvalue⟩ := bind_eq_ok_iff.1 h
    refine ⟨.number carry.value :: tokens, hvalue, fun text htext => ?_⟩
    have hle : carry.length ≤ buffer.toList.length := String.length_toList ▸ hle carry rfl
    have hlength : (buffer.toList.drop carry.length).length + carry.length = buffer.length := by
      rw [List.length_drop, ← String.length_toList]
      omega
    simp only [evaluateBuffer]
    rw [String.toList_append, List.drop_append_of_le_length hle, String.ofList_append,
      String.ofList_toList, tokenize_append_of_operator _ htext, mapError_eq_ok_iff.1 htokens,
      ok_bind, String.length_ofList]
    cases tokenize text with
    | ok more => rfl
    | error e =>
      rw [map_error, mapError_error, mapError_error, LexError.shifted_shifted, hlength]
      rfl

theorem lastError_of_evaluate {s : Session} {value : Binary64} (h : s.Coherent)
    (hvalue : s.evaluate.1 = .ok value) : s.lastError = none := by
  by_contra hne
  obtain ⟨hbuffer, hcarry⟩ := h.empty_of_error hne
  have hempty : evaluateBuffer "" none = .error (.structural .empty) := by decide +kernel
  rw [evaluate_fst, hbuffer, hcarry, hempty] at hvalue
  cases hvalue

/-- After every run, the equals key in front of an addition or a subtraction changes neither the
value of the outcome nor the kind of its failure. -/
theorem evaluate_after_equals (style : ErrorStyle) (ops : List Operation) (keys : List Key)
    {value : Binary64} (hvalue : ((new style).performAll ops).evaluate.1 = .ok value)
    (hkeys : ∀ key ∈ keys, key ≠ .equals ∧ key ≠ .clear)
    (hfirst : keys.head? = some (.operator .add) ∨ keys.head? = some (.operator .sub)) :
    let s := (new style).performAll ops
    let direct := (s.pressAll keys).evaluate.1
    let stepwise := ((s.perform (.press .equals)).pressAll keys).evaluate.1
    (∀ result, stepwise = .ok result ↔ direct = .ok result) ∧
      ∀ e e', stepwise = .error e → direct = .error e' → e.kind = e'.kind := by
  intro s direct stepwise
  have hcoherent : s.Coherent := coherent_performAll style ops
  have hbuffer : evaluateBuffer s.buffer s.carry = .ok value := s.evaluate_fst.symm.trans hvalue
  obtain ⟨op, hop, rest, hrest⟩ : ∃ op : Operator, op.isAdditive = true ∧
      ∃ rest, keys = .operator op :: rest := by
    rcases hfirst with h | h
    · exact ⟨.add, rfl, List.head?_eq_some_iff.1 h⟩
    · exact ⟨.sub, rfl, List.head?_eq_some_iff.1 h⟩
  have hoperator : ∀ key ∈ keys.head?, ∃ op, key = .operator op := by simp [hrest]
  have htext : typedText keys = String.ofList (op.symbol :: rest.filterMap Key.char?) := by
    simp [typedText, hrest, Key.char?]
  -- pressed directly, the keys go on behind an expression of the value
  obtain ⟨front, hfront, hbehind⟩ := exists_front_of_evaluateBuffer hcoherent.length_le hbuffer
  have hdirect : direct = ((tokenize (typedText keys)).mapError fun e =>
      .lexical (e.shifted s.buffer.length)) >>= fun tokens =>
        FourFunction.evaluate (front ++ tokens) := by
    obtain ⟨hcarry, hpressed⟩ := pressAll_behind (lastError_of_evaluate hcoherent hvalue)
      hcoherent.length_le hkeys hoperator
    rw [← hbehind (typedText keys) (head_typedText hoperator), ← hcarry, ← hpressed, ← evaluate_fst]
  -- behind the equals key, they go on behind the value itself
  have hstepwise : stepwise = continued value (typedText keys) := by
    have hrests := s.rests_evaluate
    rw [evaluation, hvalue] at hrests
    obtain ⟨hshown, hcarry, herror⟩ := hrests
    exact evaluate_pressAll_of_answered hshown hcarry herror hkeys hoperator
  refine same_of_mapError_eq ?_
  rw [hstepwise, hdirect, continued]
  cases htokens : tokenize (typedText keys) with
  | error e => rfl
  | ok tokens =>
    rw [htext] at htokens
    obtain ⟨tail, rfl⟩ := exists_tokens_of_operator htokens
    exact (evaluate_append hfront hop tail).symm

/-- What is left of `0.1 + 0.2 - 0.3`, namely `2 ^ (-54)`. -/
def tenthsLeftover : Binary64 := .finite false ⟨0x3C90000000000000, by decide⟩

/-- Three tenths taken from what is shown as `0.3` leave the same as without the equals key. -/
theorem evaluate_after_tenths :
    let s := (new .brief).performAll [.pressText "0.1+0.2"]
    let keys : List Key := [.operator .sub, .digit 0, .point, .digit 3]
    (s.perform (.press .equals)).display = "0.3" ∧
      (s.pressAll keys).evaluate.1 = .ok tenthsLeftover ∧
      ((s.perform (.press .equals)).pressAll keys).evaluate.1 = .ok tenthsLeftover := by
  intro s keys
  have hvalue : s.evaluate.1 = .ok (.finite false ⟨0x3FD3333333333334, by decide⟩) := by
    decide +kernel
  obtain ⟨hresult, -⟩ := evaluate_after_equals .brief [.pressText "0.1+0.2"] keys hvalue
    (by decide) (.inr rfl)
  have hdirect : (s.pressAll keys).evaluate.1 = .ok tenthsLeftover := by decide +kernel
  exact ⟨by decide +kernel, hdirect, (hresult _).2 hdirect⟩

end Session

end FourFunction
