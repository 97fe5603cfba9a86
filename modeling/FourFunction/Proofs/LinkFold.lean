import FourFunction.Expression.Evaluation
import FourFunction.Proofs.Arrangement
import FourFunction.Proofs.Failing

/-!
# Reading links

What the one-pass evaluation knows between two links of a chain is the sum that waits and the term
read so far (`readLink`).
-/

namespace FourFunction

section

variable (apply : Arithmetic)

/-- Reads a link behind a pending sum and the term read so far. -/
def readLink (read : Pending × Binary64) (link : Link) : Except CalcError (Pending × Binary64) :=
  if link.1.isAdditive then
    (settle apply read.1 read.2).map fun sum => (some (sum, link.1), link.2)
  else (apply link.1 read.2 link.2).map fun product => (read.1, product)

def readLinks (read : Pending × Binary64) (links : List Link) :
    Except CalcError (Pending × Binary64) :=
  links.foldlM (readLink apply) read

@[simp] theorem readLinks_nil (read : Pending × Binary64) :
    readLinks apply read [] = .ok read := rfl

theorem readLinks_cons (read : Pending × Binary64) (link : Link) (links : List Link) :
    readLinks apply read (link :: links) =
      readLink apply read link >>= fun read' => readLinks apply read' links :=
  List.foldlM_cons

theorem readLinks_append (read : Pending × Binary64) (links more : List Link) :
    readLinks apply read (links ++ more) =
      readLinks apply read links >>= fun read' => readLinks apply read' more :=
  List.foldlM_append

theorem Token.operand_number {x : Binary64} (h : x.isFinite = true) (position : Nat) :
    (Token.number x).operand position = .ok x := by
  simp [Token.operand, h]

theorem foldRest_link (read : Pending × Binary64) (position : Nat) {link : Link} (tail : List Token)
    (hfinite : link.2.isFinite = true) :
    foldRest apply read.1 read.2 position (.operator link.1 :: .number link.2 :: tail) =
      readLink apply read link >>= fun read' =>
        foldRest apply read'.1 read'.2 (position + 2) tail := by
  rw [foldRest, readLink, Token.operand_number hfinite]
  split_ifs
  · cases settle apply read.1 read.2 <;> rfl
  · cases h : apply link.1 read.2 link.2 <;> simp [h]

theorem foldRest_linkTokens_append (read : Pending × Binary64) (position : Nat) {links : List Link}
    (tail : List Token) (hfinite : ∀ link ∈ links, link.2.isFinite = true) :
    foldRest apply read.1 read.2 position (linkTokens links ++ tail) =
      readLinks apply read links >>= fun read' =>
        foldRest apply read'.1 read'.2 (position + 2 * links.length) tail := by
  induction links generalizing read position with
  | nil => rfl
  | cons link links ih =>
    rw [List.forall_mem_cons] at hfinite
    rw [linkTokens_cons, chainTokens, List.cons_append, List.cons_append,
      foldRest_link apply read position _ hfinite.1, readLinks_cons, bind_assoc]
    refine bind_congr fun read' => ?_
    rw [ih read' (position + 2) hfinite.2, List.length_cons]
    congr! 3
    omega

/-- Tokens behind a chain are read from what the chain leaves. -/
theorem foldTokensWith_chainTokens_append {x : Binary64} {links : List Link} (tail : List Token)
    (hx : x.isFinite = true) (hfinite : ∀ link ∈ links, link.2.isFinite = true) :
    foldTokensWith apply (chainTokens x links ++ tail) =
      readLinks apply (none, x) links >>= fun read =>
        foldRest apply read.1 read.2 (1 + 2 * links.length) tail := by
  rw [chainTokens, List.cons_append, foldTokensWith, Token.operand_number hx, ok_bind]
  exact foldRest_linkTokens_append apply (none, x) 1 tail hfinite

/-- The value of a chain is what its last term settles. -/
theorem evaluateWith_chainTokens {x : Binary64} {links : List Link} (hx : x.isFinite = true)
    (hfinite : ∀ link ∈ links, link.2.isFinite = true) :
    evaluateWith apply (chainTokens x links) =
      readLinks apply (none, x) links >>= fun read => settle apply read.1 read.2 := by
  have hcheck := checkArrangement_eq_ok_iff.2 ⟨x, links, rfl, hx, hfinite⟩
  have hfold := foldTokensWith_chainTokens_append apply [] hx hfinite
  rw [List.append_nil] at hfold
  rw [evaluateWith, hcheck, mapError_ok, ok_bind, hfold]
  refine bind_congr fun read => ?_
  rw [foldRest]

end

/-! ### The check in front -/

theorem checkArrangement_of_evaluate {tokens : List Token} {value : Binary64}
    (h : evaluate tokens = .ok value) : checkArrangement tokens = .ok () := by
  cases hcheck : checkArrangement tokens with
  | ok accepted => rfl
  | error reason =>
    rw [evaluate, evaluateWith, hcheck] at h
    cases h

theorem evaluate_of_checkArrangement {tokens : List Token} {reason : ArrangementError}
    (h : checkArrangement tokens = .error reason) :
    evaluate tokens = .error (.structural reason) := by
  rw [evaluate, evaluateWith, h]
  rfl

theorem evaluate_of_rejected {tokens : List Token} (h : checkArrangement tokens ≠ .ok ()) :
    ∃ reason, evaluate tokens = .error (.structural reason) := by
  cases hcheck : checkArrangement tokens with
  | ok accepted => exact absurd hcheck h
  | error reason => exact ⟨reason, evaluate_of_checkArrangement hcheck⟩

end FourFunction
