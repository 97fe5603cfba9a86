import FourFunction.Proofs.LinkFold

/-!
# Evaluation without the check

A token list is a chain of finite numbers and what is stuck behind it (`exists_linkTokens_append`).
Where something is stuck, the one-pass evaluation fails: with the objection of the check, unless an
operation in the chain fails first (`foldTokens_of_rejected`).
-/

namespace FourFunction

/-! ### Failures of arithmetic -/

def CalcError.IsArithmetic (e : CalcError) : Prop := e = .divisionByZero ∨ e = .overflow

theorem CalcError.IsArithmetic.ne_structural {e : CalcError} (h : e.IsArithmetic)
    (reason : ArrangementError) : e ≠ .structural reason := by
  rintro rfl
  rcases h with h | h <;> cases h

theorem isArithmetic_of_finiteOr {x : Binary64} {e : CalcError} (h : finiteOr x = .error e) :
    e.IsArithmetic := by
  unfold finiteOr at h
  split_ifs at h
  exact .inr (Except.error.inj h).symm

theorem Operator.isArithmetic_of_apply {op : Operator} {a b : Binary64} {e : CalcError}
    (h : op.apply a b = .error e) : e.IsArithmetic := by
  cases op with
  | add | sub | mul => exact isArithmetic_of_finiteOr h
  | div =>
    simp only [apply] at h
    split_ifs at h
    · exact .inl (Except.error.inj h).symm
    · exact isArithmetic_of_finiteOr h

theorem isArithmetic_of_settle {pending : Pending} {term : Binary64} {e : CalcError}
    (h : settle Operator.apply pending term = .error e) : e.IsArithmetic := by
  cases pending with
  | none => cases h
  | some pending => exact Operator.isArithmetic_of_apply h

theorem isArithmetic_of_readLinks {read : Pending × Binary64} {links : List Link} {e : CalcError}
    (h : readLinks Operator.apply read links = .error e) : e.IsArithmetic := by
  induction links generalizing read with
  | nil => cases h
  | cons link links ih =>
    rw [readLinks_cons, bind_eq_error_iff] at h
    rcases h with h | ⟨read', -, h⟩
    · unfold readLink at h
      split_ifs at h
      · exact isArithmetic_of_settle (map_eq_error_iff.1 h)
      · exact Operator.isArithmetic_of_apply (map_eq_error_iff.1 h)
    · exact ih h

theorem isArithmetic_of_evaluate {tokens : List Token} {e : CalcError}
    (hcheck : checkArrangement tokens = .ok ()) (h : evaluate tokens = .error e) :
    e.IsArithmetic := by
  obtain ⟨x, links, rfl, hx, hlinks⟩ := checkArrangement_eq_ok_iff.1 hcheck
  rw [evaluate, evaluateWith_chainTokens _ hx hlinks, bind_eq_error_iff] at h
  rcases h with h | ⟨read, -, h⟩
  · exact isArithmetic_of_readLinks h
  · exact isArithmetic_of_settle h

/-! ### What is stuck behind a chain -/

/-- The objection to what stands behind a chain.  There is none at the end of the list, nor to an
operator and a finite number, which prolong the chain. -/
def stuckFault? (position : Nat) : List Token → Option ArrangementError
  | [] => none
  | .number _ :: _ => some (.adjacentNumbers position)
  | [.operator _] => some .trailingOperator
  | .operator _ :: .operator _ :: _ => some (.adjacentOperators (position + 1))
  | .operator _ :: .number x :: _ =>
      if x.isFinite then none else some (.nonFiniteNumber (position + 1))

/-- The tokens behind a number are finite links and what is stuck behind them. -/
theorem exists_linkTokens_append (position : Nat) :
    ∀ tokens : List Token, ∃ links tail, tokens = linkTokens links ++ tail ∧
      (∀ link ∈ links, link.2.isFinite = true) ∧
        (tail = [] ∨ ∃ reason, stuckFault? (position + 2 * links.length) tail = some reason)
  | [] => ⟨[], [], rfl, by simp, .inl rfl⟩
  | .number x :: rest => ⟨[], .number x :: rest, rfl, by simp, .inr ⟨_, rfl⟩⟩
  | [.operator op] => ⟨[], [.operator op], rfl, by simp, .inr ⟨_, rfl⟩⟩
  | .operator op :: .operator op' :: rest =>
    ⟨[], .operator op :: .operator op' :: rest, rfl, by simp, .inr ⟨_, rfl⟩⟩
  | .operator op :: .number x :: rest => by
    by_cases hx : x.isFinite = true
    · obtain ⟨links, tail, rfl, hlinks, htail⟩ := exists_linkTokens_append (position + 2) rest
      have hposition : position + 2 + 2 * links.length = position + 2 * (links.length + 1) := by
        omega
      rw [hposition] at htail
      exact ⟨(op, x) :: links, tail, rfl, List.forall_mem_cons.2 ⟨hx, hlinks⟩, htail⟩
    · exact ⟨[], .operator op :: .number x :: rest, rfl, by simp,
        .inr ⟨_, by simp [stuckFault?, hx]; rfl⟩⟩

/-- The one-pass evaluation objects to stuck tokens, if it completes the sum in front of them. -/
theorem foldRest_of_stuckFault? {pending : Pending} {term : Binary64} {position : Nat}
    {tail : List Token} {reason : ArrangementError} (h : stuckFault? position tail = some reason) :
    foldRest Operator.apply pending term position tail = .error (.structural reason) ∨
      ∃ e, settle Operator.apply pending term = .error e ∧
        foldRest Operator.apply pending term position tail = .error e := by
  have hsettle : ∀ {next : Binary64 → Except CalcError Binary64},
      (∀ sum, next sum = .error (.structural reason)) →
      (settle Operator.apply pending term >>= next) = .error (.structural reason) ∨
        ∃ e, settle Operator.apply pending term = .error e ∧
          (settle Operator.apply pending term >>= next) = .error e := by
    intro next hnext
    cases hsum : settle Operator.apply pending term with
    | error e => exact .inr ⟨e, rfl, rfl⟩
    | ok sum => exact .inl (hnext sum)
  have hoperand : ∀ {op : Operator} {token : Token} {rest : List Token},
      token.operand (position + 1) = .error (.structural reason) →
      foldRest Operator.apply pending term position (.operator op :: token :: rest) =
          .error (.structural reason) ∨
        ∃ e, settle Operator.apply pending term = .error e ∧
          foldRest Operator.apply pending term position (.operator op :: token :: rest) =
            .error e := by
    intro op token rest herror
    rw [foldRest, herror]
    split_ifs
    · exact hsettle fun _ => rfl
    · exact .inl rfl
  revert h
  fun_cases stuckFault? position tail with
  | case1 | case5 => simp
  | case2 x rest =>
    rintro ⟨⟩
    rw [foldRest]
    exact hsettle fun _ => rfl
  | case3 op =>
    rintro ⟨⟩
    rw [foldRest]
    split_ifs
    · exact hsettle fun _ => rfl
    · exact .inl rfl
  | case4 op op' rest =>
    rintro ⟨⟩
    exact hoperand (by simp [Token.operand])
  | case6 op x rest hx =>
    rintro ⟨⟩
    exact hoperand (by simp [Token.operand, hx])

/-- Stuck tokens are objected to, if the chain does not fail by itself. -/
theorem foldTokens_of_stuckFault? {x : Binary64} {links : List Link} {tail : List Token}
    {reason : ArrangementError} (hx : x.isFinite = true)
    (hlinks : ∀ link ∈ links, link.2.isFinite = true)
    (h : stuckFault? (1 + 2 * links.length) tail = some reason) :
    foldTokens (chainTokens x links ++ tail) = .error (.structural reason) ∨
      ∃ e, evaluate (chainTokens x links) = .error e ∧
        foldTokens (chainTokens x links ++ tail) = .error e := by
  rw [foldTokens, foldTokensWith_chainTokens_append _ tail hx hlinks, evaluate,
    evaluateWith_chainTokens _ hx hlinks]
  cases readLinks Operator.apply (none, x) links with
  | error e => exact .inr ⟨e, rfl, rfl⟩
  | ok read => exact foldRest_of_stuckFault? h

/-- The check has the same objection, if all numbers are finite. -/
theorem checkArrangement_of_stuckFault? {x : Binary64} {links : List Link} {tail : List Token}
    {reason : ArrangementError} (h : stuckFault? (1 + 2 * links.length) tail = some reason)
    (hfinite : ∀ token ∈ tail, token.isNonFinite = false) :
    checkArrangement (chainTokens x links ++ tail) = .error reason := by
  obtain ⟨y, hadj, hlast⟩ := exists_last_chainTokens x links
  have hadj := hadj tail 1
  have hlast := hlast tail
  rw [chainTokens, List.cons_append] at hadj hlast ⊢
  unfold checkArrangement
  simp only [Token.isOperator, Bool.false_eq_true, if_false, hadj, hlast]
  revert h
  fun_cases stuckFault? (1 + 2 * links.length) tail with
  | case1 | case5 => simp
  | case2 x rest | case3 op | case4 op op' rest =>
    rintro ⟨⟩
    rfl
  | case6 op z rest hz =>
    have hfinite := hfinite (.number z) (by simp)
    simp [Token.isNonFinite, hz] at hfinite

/-! ### Rejected token lists -/

/-- A rejected list fails with the objection of the check, as long as no infinity or NaN is there to
object to, or by arithmetic in an accepted front of the list. -/
theorem foldTokens_of_rejected {tokens : List Token} {reason : ArrangementError}
    (h : checkArrangement tokens = .error reason) :
    (∃ reason', foldTokens tokens = .error (.structural reason') ∧
      ((∀ token ∈ tokens, token.isNonFinite = false) → reason' = reason)) ∨
    ∃ e front, foldTokens tokens = .error e ∧ e.IsArithmetic ∧ front <+: tokens ∧
      checkArrangement front = .ok () ∧ evaluate front = .error e := by
  cases tokens with
  | nil => exact .inl ⟨.empty, rfl, fun _ => Except.error.inj h⟩
  | cons first rest =>
  cases first with
  | operator op => exact .inl ⟨.leadingOperator, rfl, fun _ => Except.error.inj h⟩
  | number x =>
  cases hx : x.isFinite with
  | false =>
    refine .inl ⟨.nonFiniteNumber 0, by simp [foldTokens, foldTokensWith, Token.operand, hx], ?_⟩
    intro hfinite
    have hmem := hfinite (.number x) List.mem_cons_self
    simp [Token.isNonFinite, hx] at hmem
  | true =>
    obtain ⟨links, tail, rfl, hlinks, htail⟩ := exists_linkTokens_append 1 rest
    have hfront := checkArrangement_eq_ok_iff.2 ⟨x, links, rfl, hx, hlinks⟩
    rw [← List.cons_append] at h ⊢
    change checkArrangement (chainTokens x links ++ tail) = .error reason at h
    obtain rfl | ⟨stuck, hstuck⟩ := htail
    · rw [List.append_nil, hfront] at h
      cases h
    rcases foldTokens_of_stuckFault? hx hlinks hstuck with hobjection | ⟨e, hvalue, hfold⟩
    · refine .inl ⟨stuck, hobjection, fun hfinite => ?_⟩
      have hcheck := checkArrangement_of_stuckFault? (x := x) hstuck fun token htoken =>
        hfinite token (List.mem_append_right _ htoken)
      exact Except.error.inj (hcheck.symm.trans h)
    · exact .inr ⟨e, _, hfold, isArithmetic_of_evaluate hfront hvalue, List.prefix_append _ _,
        hfront, hvalue⟩

/-! ### Accepted token lists by index -/

/-- The numbers stand at the even indices, and are finite; the operators at the odd ones. -/
def Token.FitsAt (token : Token) (index : Nat) : Prop :=
  if index % 2 = 0 then ∃ x, token = .number x ∧ x.isFinite = true else ∃ op, token = .operator op

theorem Token.fitsAt_add_two {token : Token} {index : Nat} :
    token.FitsAt (index + 2) ↔ token.FitsAt index := by
  rw [FitsAt, FitsAt, Nat.add_mod_right]

theorem forall_getElem?_cons {α : Type} {P : α → Nat → Prop} {a : α} {s : List α} :
    (∀ (i : Nat) b, (a :: s)[i]? = some b → P b i) ↔
      P a 0 ∧ ∀ (i : Nat) b, s[i]? = some b → P b (i + 1) := by
  constructor
  · exact fun h => ⟨h 0 a rfl, fun i b hb => h (i + 1) b hb⟩
  · rintro ⟨ha, hs⟩ i b hb
    cases i with
    | zero =>
      obtain rfl : a = b := by simpa using hb
      exact ha
    | succ i => exact hs i b (by simpa using hb)

theorem exists_linkTokens_iff : ∀ rest : List Token,
    (∃ links, rest = linkTokens links ∧ ∀ link ∈ links, link.2.isFinite = true) ↔
      rest.length % 2 = 0 ∧
        ∀ (i : Nat) (token : Token), rest[i]? = some token → token.FitsAt (i + 1)
  | [] => by
    simp only [List.length_nil, Nat.zero_mod, List.getElem?_nil, true_and]
    exact ⟨fun _ => by simp, fun _ => ⟨[], rfl, by simp⟩⟩
  | [token] => by
    refine ⟨?_, by simp⟩
    rintro ⟨links, h, -⟩
    cases links <;> simp [chainTokens] at h
  | first :: second :: rest => by
    have ih := exists_linkTokens_iff rest
    have hlength : (first :: second :: rest).length % 2 = rest.length % 2 := by
      rw [List.length_cons, List.length_cons, Nat.add_assoc, Nat.add_mod_right]
    have hfits : ∀ (i : Nat) (token : Token), rest[i]? = some token →
        (token.FitsAt (i + 1 + 1 + 1) ↔ token.FitsAt (i + 1)) := fun i token _ =>
      Token.fitsAt_add_two
    rw [hlength, forall_getElem?_cons, forall_getElem?_cons, forall₃_congr hfits]
    constructor
    · rintro ⟨links, h, hlinks⟩
      cases links with
      | nil => cases h
      | cons link links =>
        rw [List.forall_mem_cons] at hlinks
        simp only [linkTokens_cons, chainTokens, List.cons.injEq] at h
        obtain ⟨rfl, rfl, rfl⟩ := h
        obtain ⟨heven, hrest⟩ := ih.1 ⟨links, rfl, hlinks.2⟩
        exact ⟨heven, ⟨_, rfl⟩, ⟨_, rfl, hlinks.1⟩, hrest⟩
    · rintro ⟨heven, ⟨op, rfl⟩, ⟨x, rfl, hx⟩, hrest⟩
      obtain ⟨links, rfl, hlinks⟩ := ih.2 ⟨heven, hrest⟩
      exact ⟨(op, x) :: links, rfl, List.forall_mem_cons.2 ⟨hx, hlinks⟩⟩

/-- The accepted token lists have odd length, finite numbers at the even indices and operators at
the odd ones. -/
theorem checkArrangement_eq_ok_iff_fitsAt {tokens : List Token} :
    checkArrangement tokens = .ok () ↔
      tokens.length % 2 = 1 ∧
        ∀ (i : Nat) (token : Token), tokens[i]? = some token → token.FitsAt i := by
  rw [checkArrangement_eq_ok_iff]
  cases tokens with
  | nil => simp [chainTokens]
  | cons first rest =>
    have hlength : (first :: rest).length % 2 = 1 ↔ rest.length % 2 = 0 := by
      rw [List.length_cons]
      omega
    rw [forall_getElem?_cons, hlength]
    constructor
    · rintro ⟨x, links, h, hx, hlinks⟩
      obtain ⟨rfl, rfl⟩ := List.cons.inj h
      obtain ⟨heven, hrest⟩ := (exists_linkTokens_iff _).1 ⟨links, rfl, hlinks⟩
      exact ⟨heven, ⟨x, rfl, hx⟩, hrest⟩
    · rintro ⟨heven, ⟨x, rfl, hx⟩, hrest⟩
      obtain ⟨links, rfl, hlinks⟩ := (exists_linkTokens_iff rest).2 ⟨heven, hrest⟩
      exact ⟨x, links, rfl, hx, hlinks⟩

/-! ### Agreement -/

/-- On an accepted list the evaluation without the check is the checked one.  On a rejected list it
has no value: it objects as the check does if all numbers are finite, or fails by arithmetic in an
accepted front of the list. -/
theorem foldTokens_agrees (tokens : List Token) :
    (checkArrangement tokens = .ok () →
      foldTokens tokens = evaluate tokens ∧
        ∀ reason, foldTokens tokens ≠ .error (.structural reason)) ∧
    (∀ reason, checkArrangement tokens = .error reason →
      (∀ value, foldTokens tokens ≠ .ok value) ∧
      ((∀ token ∈ tokens, token.isNonFinite = false) →
        ∀ found, foldTokens tokens = .error (.structural found) → found = reason) ∧
      ∀ e, foldTokens tokens = .error e → (∃ found, e = .structural found) ∨
        e.IsArithmetic ∧ ∃ front, front <+: tokens ∧ checkArrangement front = .ok () ∧
          evaluate front = .error e) ∧
    (checkArrangement tokens = .ok () ↔
      tokens.length % 2 = 1 ∧
        ∀ (i : Nat) (token : Token), tokens[i]? = some token → token.FitsAt i) := by
  refine ⟨fun hcheck => ?_, fun reason hcheck => ?_, checkArrangement_eq_ok_iff_fitsAt⟩
  · have hsame : evaluate tokens = foldTokens tokens := by
      rw [evaluate, evaluateWith, hcheck, mapError_ok, ok_bind, foldTokens]
    refine ⟨hsame.symm, fun reason hfold => ?_⟩
    exact (isArithmetic_of_evaluate hcheck (hsame.trans hfold)).ne_structural reason rfl
  · rcases foldTokens_of_rejected hcheck with
      ⟨found, hfold, hfound⟩ | ⟨e, front, hfold, he, hfront, haccepted, hvalue⟩
    · rw [hfold]
      refine ⟨by simp, fun hfinite other h => ?_, fun e h => ?_⟩
      · obtain rfl := CalcError.structural.inj (Except.error.inj h)
        exact hfound hfinite
      · exact .inl ⟨found, (Except.error.inj h).symm⟩
    · rw [hfold]
      refine ⟨by simp, fun _ other h => ?_, fun e' h => ?_⟩
      · exact (he.ne_structural other (Except.error.inj h)).elim
      · obtain rfl := Except.error.inj h
        exact .inr ⟨he, front, hfront, haccepted, hvalue⟩

def quotientBeforeOperators : List Token :=
  [.number (.ofBits 0x3ff0000000000000), .operator .div, .number .zero, .operator .add,
    .operator .mul, .number (.ofBits 0x4000000000000000)]

/-- The check objects to the second operator; without it the quotient fails first. -/
theorem foldTokens_quotientBeforeOperators :
    checkArrangement quotientBeforeOperators = .error (.adjacentOperators 4) ∧
      evaluate quotientBeforeOperators = .error (.structural (.adjacentOperators 4)) ∧
      foldTokens quotientBeforeOperators = .error .divisionByZero ∧
      ∃ front, front <+: quotientBeforeOperators ∧ checkArrangement front = .ok () ∧
        evaluate front = .error .divisionByZero := by
  have hcheck : checkArrangement quotientBeforeOperators = .error (.adjacentOperators 4) := by
    decide +kernel
  have hfold : foldTokens quotientBeforeOperators = .error .divisionByZero := by decide +kernel
  obtain ⟨-, -, hfailure⟩ := (foldTokens_agrees quotientBeforeOperators).2.1 _ hcheck
  obtain ⟨found, hfound⟩ | ⟨-, hfront⟩ := hfailure _ hfold
  · cases hfound
  · exact ⟨hcheck, by decide +kernel, hfold, hfront⟩

end FourFunction
