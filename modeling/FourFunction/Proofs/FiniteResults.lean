import FourFunction.Expression.Evaluation
import FourFunction.Proofs.Failing

/-!
# Finite results

Every operation, and so every evaluation, gives a finite number or fails.
-/

namespace FourFunction

theorem isFinite_of_finiteOr {x value : Binary64} (h : finiteOr x = .ok value) :
    value.isFinite = true := by
  unfold finiteOr at h
  split_ifs at h with hfinite
  obtain rfl := Except.ok.inj h
  exact hfinite

theorem Operator.isFinite_of_apply {op : Operator} {a b value : Binary64}
    (h : op.apply a b = .ok value) : value.isFinite = true := by
  cases op with
  | add | sub | mul => exact isFinite_of_finiteOr h
  | div =>
    simp only [apply] at h
    split_ifs at h
    exact isFinite_of_finiteOr h

theorem Token.isFinite_of_operand {token : Token} {position : Nat} {value : Binary64}
    (h : token.operand position = .ok value) : value.isFinite = true := by
  cases token with
  | number x =>
    simp only [operand] at h
    split_ifs at h with hfinite
    obtain rfl := Except.ok.inj h
    exact hfinite
  | operator op => simp [operand] at h

theorem isFinite_of_settle {pending : Pending} {term value : Binary64}
    (hterm : term.isFinite = true) (h : settle Operator.apply pending term = .ok value) :
    value.isFinite = true := by
  cases pending with
  | none =>
    obtain rfl := Except.ok.inj h
    exact hterm
  | some pending => exact Operator.isFinite_of_apply h

/-- The fold over an expression keeps its term finite. -/
theorem isFinite_of_foldRest {pending : Pending} {term value : Binary64} {position : Nat}
    {tokens : List Token} (hterm : term.isFinite = true)
    (h : foldRest Operator.apply pending term position tokens = .ok value) :
    value.isFinite = true := by
  fun_induction foldRest Operator.apply pending term position tokens with
  | case1 pending term => exact isFinite_of_settle hterm h
  | case2 =>
    obtain ⟨_, -, h⟩ := bind_eq_ok_iff.1 h
    cases h
  | case3 =>
    obtain ⟨_, -, h⟩ := bind_eq_ok_iff.1 h
    cases h
  | case4 => cases h
  | case5 pending term position op token rest _ ih =>
    obtain ⟨sum, -, h⟩ := bind_eq_ok_iff.1 h
    obtain ⟨operand, hoperand, h⟩ := bind_eq_ok_iff.1 h
    exact ih sum operand (Token.isFinite_of_operand hoperand) h
  | case6 pending term position op token rest _ ih =>
    obtain ⟨operand, -, h⟩ := bind_eq_ok_iff.1 h
    obtain ⟨product, hproduct, h⟩ := bind_eq_ok_iff.1 h
    exact ih product (Operator.isFinite_of_apply hproduct) h

theorem isFinite_of_foldTokens {tokens : List Token} {value : Binary64}
    (h : foldTokens tokens = .ok value) : value.isFinite = true := by
  cases tokens with
  | nil => simp [foldTokens, foldTokensWith] at h
  | cons token rest =>
    obtain ⟨operand, hoperand, h⟩ := bind_eq_ok_iff.1 h
    exact isFinite_of_foldRest (Token.isFinite_of_operand hoperand) h

theorem isFinite_of_evaluate {tokens : List Token} {value : Binary64}
    (h : evaluate tokens = .ok value) : value.isFinite = true := by
  obtain ⟨_, -, h⟩ := bind_eq_ok_iff.1 h
  exact isFinite_of_foldTokens h

/-- A text has no value but a finite one. -/
theorem isFinite_of_evaluateText {text : String} {value : Binary64}
    (h : evaluateText text = .ok value) : value.isFinite = true := by
  obtain ⟨tokens, -, h⟩ := bind_eq_ok_iff.1 h
  exact isFinite_of_evaluate h

end FourFunction
