import FourFunction.Proofs.Unchecked

/-!
# Division by zero

Divisors are numbers of the token list and never computed, so a division by zero can be seen in the
tokens (`evaluate_zeroDivisor`).  Its link is never passed, and is reached if the tokens in front of
it have a value.
-/

namespace FourFunction

/-! ### Single operations -/

theorem Binary64.isZero_iff {x : Binary64} : x.isZero = true ↔ x = zero ∨ x = zero.neg := by
  constructor
  · intro h
    cases x with
    | finite s r =>
      obtain rfl : r = ⟨0, by decide⟩ := Fin.ext (beq_iff_eq.1 h)
      cases s
      · exact .inl rfl
      · exact .inr rfl
    | infinite s | nan => cases h
  · rintro (rfl | rfl) <;> rfl

theorem Binary64.isFinite_of_isZero {x : Binary64} (h : x.isZero = true) : x.isFinite = true := by
  obtain rfl | rfl := isZero_iff.1 h <;> rfl

theorem finiteOr_ne_divisionByZero (x : Binary64) : finiteOr x ≠ .error .divisionByZero := by
  unfold finiteOr
  split_ifs <;> simp

theorem Operator.apply_eq_divisionByZero_iff {op : Operator} {a b : Binary64} :
    op.apply a b = .error .divisionByZero ↔ op = .div ∧ b.isZero = true := by
  cases op with
  | add | sub | mul => simp [apply, finiteOr_ne_divisionByZero]
  | div =>
    simp only [apply, true_and]
    split_ifs with hzero
    · simp [hzero]
    · simp [hzero, finiteOr_ne_divisionByZero]

/-! ### Links -/

def Link.DividesByZero (link : Link) : Prop := link.1 = .div ∧ link.2.isZero = true

/-- The pending operation is an addition or a subtraction, as in every evaluation. -/
def Pending.IsAdditive (pending : Pending) : Prop := ∀ sum ∈ pending, sum.2.isAdditive = true

theorem Pending.isAdditive_none : Pending.IsAdditive none := nofun

theorem settle_ne_divisionByZero {pending : Pending} (h : pending.IsAdditive) (term : Binary64) :
    settle Operator.apply pending term ≠ .error .divisionByZero := by
  cases pending with
  | none => simp [settle]
  | some pending =>
    intro hzero
    obtain ⟨hdiv, -⟩ := Operator.apply_eq_divisionByZero_iff.1 hzero
    have hadditive := h pending rfl
    rw [hdiv] at hadditive
    cases hadditive

theorem readLink_of_dividesByZero {link : Link} (h : link.DividesByZero)
    (read : Pending × Binary64) :
    readLink Operator.apply read link = .error .divisionByZero := by
  have hadditive : ¬link.1.isAdditive = true := by
    rw [h.1]
    decide
  rw [readLink, if_neg hadditive, map_eq_error_iff]
  exact Operator.apply_eq_divisionByZero_iff.2 h

theorem readLink_eq_divisionByZero_iff {read : Pending × Binary64} (hread : read.1.IsAdditive)
    {link : Link} :
    readLink Operator.apply read link = .error .divisionByZero ↔ link.DividesByZero := by
  refine ⟨fun h => ?_, fun h => readLink_of_dividesByZero h read⟩
  rw [readLink] at h
  split_ifs at h
  · exact absurd (map_eq_error_iff.1 h) (settle_ne_divisionByZero hread _)
  · exact Operator.apply_eq_divisionByZero_iff.1 (map_eq_error_iff.1 h)

theorem isAdditive_of_readLink {read read' : Pending × Binary64} (hread : read.1.IsAdditive)
    {link : Link} (h : readLink Operator.apply read link = .ok read') : read'.1.IsAdditive := by
  rw [readLink] at h
  split_ifs at h with hadditive
  · obtain ⟨sum, -, rfl⟩ := map_eq_ok_iff.1 h
    rintro sum' ⟨⟩
    exact hadditive
  · obtain ⟨product, -, rfl⟩ := map_eq_ok_iff.1 h
    exact hread

theorem isAdditive_of_readLinks {read read' : Pending × Binary64} (hread : read.1.IsAdditive)
    {links : List Link} (h : readLinks Operator.apply read links = .ok read') :
    read'.1.IsAdditive := by
  induction links generalizing read with
  | nil =>
    obtain rfl := Except.ok.inj h
    exact hread
  | cons link links ih =>
    rw [readLinks_cons, bind_eq_ok_iff] at h
    obtain ⟨next, hlink, h⟩ := h
    exact ih (isAdditive_of_readLink hread hlink) h

/-- A division by zero among links is reached if the links in front of it are read. -/
theorem readLinks_append_of_dividesByZero {link : Link} (h : link.DividesByZero)
    (read : Pending × Binary64) (before after : List Link) :
    readLinks Operator.apply read (before ++ link :: after) =
      readLinks Operator.apply read before >>= fun _ => .error .divisionByZero := by
  rw [readLinks_append]
  refine bind_congr fun read' => ?_
  rw [readLinks_cons, readLink_of_dividesByZero h, error_bind]

/-- Links divide by zero at the first link that does, if those in front of it are read. -/
theorem readLinks_eq_divisionByZero_iff {read : Pending × Binary64} (hread : read.1.IsAdditive)
    {links : List Link} :
    readLinks Operator.apply read links = .error .divisionByZero ↔
      ∃ before link after, links = before ++ link :: after ∧ link.DividesByZero ∧
        ∃ read', readLinks Operator.apply read before = .ok read' := by
  constructor
  · intro h
    induction links generalizing read with
    | nil => cases h
    | cons link links ih =>
      rw [readLinks_cons, bind_eq_error_iff] at h
      obtain h | ⟨read', hlink, h⟩ := h
      · exact ⟨[], link, links, rfl, (readLink_eq_divisionByZero_iff hread).1 h, read, rfl⟩
      · obtain ⟨before, zero, after, rfl, hzero, last, hbefore⟩ :=
          ih (isAdditive_of_readLink hread hlink) h
        refine ⟨link :: before, zero, after, rfl, hzero, last, ?_⟩
        rw [readLinks_cons, hlink, ok_bind, hbefore]
  · rintro ⟨before, link, after, rfl, hzero, read', hbefore⟩
    rw [readLinks_append_of_dividesByZero hzero, hbefore, ok_bind]

/-! ### Token lists -/

/-- Where an operator and a number stand in a chain, they are one of its links. -/
theorem exists_links_of_chainTokens_eq {x z : Binary64} {op : Operator} {links : List Link}
    {front rest : List Token}
    (h : chainTokens x links = front ++ .operator op :: .number z :: rest) :
    ∃ before after, links = before ++ (op, z) :: after ∧ front = chainTokens x before ∧
      rest = linkTokens after := by
  induction links generalizing x front with
  | nil =>
    match front with
    | [] => cases h
    | [_] => cases h
    | _ :: _ :: _ => cases h
  | cons link links ih =>
    match front with
    | [] => cases h
    | [first] =>
      simp only [chainTokens, linkTokens_cons, List.singleton_append, List.cons.injEq,
        Token.operator.injEq, Token.number.injEq] at h
      obtain ⟨rfl, hop, hz, rfl⟩ := h
      exact ⟨[], links, by rw [← hop, ← hz, List.nil_append], rfl, rfl⟩
    | first :: second :: front =>
      -- the first link is passed, and the rest is a chain again
      rw [chainTokens, linkTokens_cons, List.cons_append, List.cons_append, List.cons.injEq,
        List.cons.injEq] at h
      obtain ⟨rfl, rfl, h⟩ := h
      obtain ⟨before, after, rfl, rfl, hrest⟩ := ih h
      exact ⟨link :: before, after, rfl, rfl, hrest⟩

section

variable {x : Binary64} {links before after : List Link} {link : Link} (hx : x.isFinite = true)

include hx

/-- What a chain comes to with a division by zero in it depends on the links in front of that. -/
theorem evaluate_chainTokens_of_dividesByZero
    (hlinks : ∀ link' ∈ before ++ link :: after, link'.2.isFinite = true)
    (hzero : link.DividesByZero) :
    evaluate (chainTokens x (before ++ link :: after)) =
      readLinks Operator.apply (none, x) before >>= fun _ => .error .divisionByZero := by
  rw [evaluate, evaluateWith_chainTokens _ hx hlinks, readLinks_append_of_dividesByZero hzero,
    bind_assoc]
  rfl

theorem evaluate_chainTokens_ne_ok
    (hlinks : ∀ link' ∈ before ++ link :: after, link'.2.isFinite = true)
    (hzero : link.DividesByZero) (value : Binary64) :
    evaluate (chainTokens x (before ++ link :: after)) ≠ .ok value := by
  rw [evaluate_chainTokens_of_dividesByZero hx hlinks hzero]
  cases readLinks Operator.apply (none, x) before <;> simp

theorem evaluate_chainTokens_of_front {value : Binary64}
    (hlinks : ∀ link' ∈ before ++ link :: after, link'.2.isFinite = true)
    (hzero : link.DividesByZero) (hfront : evaluate (chainTokens x before) = .ok value) :
    evaluate (chainTokens x (before ++ link :: after)) = .error .divisionByZero := by
  rw [evaluate, evaluateWith_chainTokens _ hx (List.forall_mem_append.1 hlinks).1,
    bind_eq_ok_iff] at hfront
  obtain ⟨read, hread, -⟩ := hfront
  rw [evaluate_chainTokens_of_dividesByZero hx hlinks hzero, hread, ok_bind]

/-- The operation that is pending at the end of a chain does not divide. -/
theorem exists_dividesByZero_of_evaluate (hlinks : ∀ link ∈ links, link.2.isFinite = true)
    (h : evaluate (chainTokens x links) = .error .divisionByZero) :
    ∃ before link after, links = before ++ link :: after ∧ link.DividesByZero := by
  rw [evaluate, evaluateWith_chainTokens _ hx hlinks, bind_eq_error_iff] at h
  obtain h | ⟨read, hread, h⟩ := h
  · obtain ⟨before, link, after, heq, hzero, -⟩ :=
      (readLinks_eq_divisionByZero_iff Pending.isAdditive_none).1 h
    exact ⟨before, link, after, heq, hzero⟩
  · have hpending := isAdditive_of_readLinks Pending.isAdditive_none hread
    exact absurd h (settle_ne_divisionByZero hpending _)

end

/-- A list that fails by division by zero has a zero divisor.  A list with one has no value: it
fails by the division or by an overflow, and by the division if the tokens in front of the sign have
a value. -/
theorem evaluate_zeroDivisor {tokens : List Token} (hcheck : checkArrangement tokens = .ok ()) :
    (evaluate tokens = .error .divisionByZero → ∃ front zero rest,
      tokens = front ++ .operator .div :: .number zero :: rest ∧
        (zero = .zero ∨ zero = Binary64.zero.neg)) ∧
    (∀ front zero rest, tokens = front ++ .operator .div :: .number zero :: rest →
      zero = .zero ∨ zero = Binary64.zero.neg →
      (evaluate tokens = .error .divisionByZero ∨ evaluate tokens = .error .overflow) ∧
        ∀ value, evaluate front = .ok value → evaluate tokens = .error .divisionByZero) ∧
    ∀ value zero, evaluate tokens = .ok value → zero = .zero ∨ zero = Binary64.zero.neg →
      evaluate (tokens ++ [.operator .div, .number zero]) = .error .divisionByZero := by
  obtain ⟨x, links, rfl, hx, hlinks⟩ := checkArrangement_eq_ok_iff.1 hcheck
  refine ⟨fun h => ?_, fun front zero rest htokens hzero => ?_, fun value zero hvalue hzero => ?_⟩
  · obtain ⟨before, ⟨op, zero⟩, after, rfl, rfl, hzero⟩ :=
      exists_dividesByZero_of_evaluate hx hlinks h
    refine ⟨chainTokens x before, zero, linkTokens after, ?_, Binary64.isZero_iff.1 hzero⟩
    rw [← chainTokens_append]
    rfl
  · obtain ⟨before, after, rfl, rfl, -⟩ := exists_links_of_chainTokens_eq htokens
    have hdivides : Link.DividesByZero (.div, zero) := ⟨rfl, Binary64.isZero_iff.2 hzero⟩
    refine ⟨?_, fun value => evaluate_chainTokens_of_front hx hlinks hdivides⟩
    cases hvalue : evaluate (chainTokens x (before ++ (.div, zero) :: after)) with
    | ok value => exact absurd hvalue (evaluate_chainTokens_ne_ok hx hlinks hdivides value)
    | error e =>
      obtain rfl | rfl := isArithmetic_of_evaluate hcheck hvalue
      · exact .inl rfl
      · exact .inr rfl
  · have hdivides : Link.DividesByZero (.div, zero) := ⟨rfl, Binary64.isZero_iff.2 hzero⟩
    have hlonger : ∀ link ∈ links ++ [(.div, zero)], link.2.isFinite = true :=
      List.forall_mem_append.2 ⟨hlinks, List.forall_mem_singleton.2
        (Binary64.isFinite_of_isZero hdivides.2)⟩
    have happend := chainTokens_append x links [(.div, zero)]
    rw [← evaluate_chainTokens_of_front hx hlonger hdivides hvalue, ← happend]
    rfl

def oneLessTwo : List Token :=
  [.number (.ofBits 0x3ff0000000000000), .operator .sub, .number (.ofBits 0x4000000000000000)]

/-- A quotient by a negative zero, and the largest number times itself behind it. -/
def quotientByZero : List Token :=
  [.operator .div, .number Binary64.zero.neg, .operator .add,
    .number (.ofBits 0x7fefffffffffffff), .operator .mul, .number (.ofBits 0x7fefffffffffffff)]

/-- The quotient is reached before a product that overflows, but not behind one. -/
theorem evaluate_quotientByZero :
    let behindDifference := oneLessTwo ++ quotientByZero
    let behindProduct := quotientByZero.drop 3 ++ quotientByZero
    checkArrangement behindDifference = .ok () ∧ checkArrangement behindProduct = .ok () ∧
      evaluate behindDifference = .error .divisionByZero ∧
      evaluate behindProduct = .error .overflow ∧
      (∃ front zero rest, behindDifference = front ++ .operator .div :: .number zero :: rest ∧
        (zero = .zero ∨ zero = Binary64.zero.neg)) ∧
      (evaluate behindProduct = .error .divisionByZero ∨
        evaluate behindProduct = .error .overflow) ∧
      evaluate (oneLessTwo ++ [.operator .div, .number .zero]) = .error .divisionByZero := by
  intro behindDifference behindProduct
  have hdifference : evaluate oneLessTwo = .ok (.ofBits 0xbff0000000000000) := by decide +kernel
  have hproduct : evaluate behindProduct = .error .overflow := by decide +kernel
  have hcheck : checkArrangement oneLessTwo = .ok () := by decide +kernel
  have hcheckDifference : checkArrangement behindDifference = .ok () := by decide +kernel
  have hcheckProduct : checkArrangement behindProduct = .ok () := by decide +kernel
  obtain ⟨-, -, happended⟩ := evaluate_zeroDivisor hcheck
  obtain ⟨hseen, hreached, -⟩ := evaluate_zeroDivisor hcheckDifference
  obtain ⟨-, hfails, -⟩ := evaluate_zeroDivisor hcheckProduct
  obtain ⟨-, hreached⟩ := hreached oneLessTwo _ _ rfl (.inr rfl)
  have hzero := hreached _ hdifference
  exact ⟨hcheckDifference, hcheckProduct, hzero, hproduct, hseen hzero,
    (hfails (quotientByZero.drop 3) _ _ rfl (.inr rfl)).1,
    happended _ _ hdifference (.inl rfl)⟩

end FourFunction
