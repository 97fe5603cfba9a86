import Mathlib.Tactic
import FourFunction.Expression.Evaluation

/-!
# The accepted arrangements

`checkArrangement` accepts a token list exactly if it is a *chain*: a finite number and any count of
links, each an operator and a finite number (`checkArrangement_eq_ok_iff`).
-/

namespace FourFunction

abbrev Link := Operator × Binary64

def linkTokens (links : List Link) : List Token :=
  links.flatMap fun link => [.operator link.1, .number link.2]

/-- A number and links. -/
def chainTokens (first : Binary64) (links : List Link) : List Token :=
  .number first :: linkTokens links

@[simp] theorem linkTokens_nil : linkTokens [] = [] := rfl

@[simp] theorem linkTokens_cons (link : Link) (links : List Link) :
    linkTokens (link :: links) = .operator link.1 :: chainTokens link.2 links := rfl

theorem chainTokens_append (x : Binary64) (links more : List Link) :
    chainTokens x links ++ linkTokens more = chainTokens x (links ++ more) := by
  simp [chainTokens, linkTokens, List.flatMap_append]

theorem linkTokens_injective : Function.Injective linkTokens := by
  intro links
  induction links with
  | nil =>
    intro other h
    cases other with
    | nil => rfl
    | cons link other => simp at h
  | cons link links ih =>
    intro other h
    cases other with
    | nil => simp at h
    | cons link' other =>
      simp only [linkTokens_cons, chainTokens, List.cons.injEq, Token.operator.injEq,
        Token.number.injEq] at h
      obtain ⟨hop, hx, hrest⟩ := h
      rw [Prod.ext hop hx, ih hrest]

theorem chainTokens_inj {x y : Binary64} {links more : List Link} :
    chainTokens x links = chainTokens y more ↔ x = y ∧ links = more := by
  simp only [chainTokens, List.cons.injEq, Token.number.injEq]
  exact and_congr_right fun _ => linkTokens_injective.eq_iff

/-! ### What the check looks at -/

/-- Behind a chain the check goes on as behind its last number. -/
theorem exists_last_chainTokens (x : Binary64) (links : List Link) :
    ∃ y, (∀ tail position, adjacent? (chainTokens x links ++ tail) position =
        adjacent? (.number y :: tail) (position + 2 * links.length)) ∧
      ∀ tail, (chainTokens x links ++ tail).getLast? = (Token.number y :: tail).getLast? := by
  induction links generalizing x with
  | nil => exact ⟨x, fun _ _ => rfl, fun _ => rfl⟩
  | cons link links ih =>
    obtain ⟨y, hadj, hlast⟩ := ih link.2
    refine ⟨y, fun tail position => ?_, fun tail => ?_⟩
    · have hadj := hadj tail (position + 2)
      rw [List.length_cons, Nat.mul_succ, Nat.add_comm _ 2, ← Nat.add_assoc, ← hadj]
      rfl
    · rw [← hlast tail]
      simp [chainTokens, linkTokens_cons]

/-- A number, tokens without two like neighbours, and a number at the end are a chain. -/
theorem exists_links_of_adjacent?_eq_none (x : Binary64) (position : Nat) :
    ∀ rest : List Token, adjacent? (.number x :: rest) position = none →
      (Token.number x :: rest).getLast?.any Token.isOperator = false →
      ∃ links, rest = linkTokens links
  | [], _, _ => ⟨[], rfl⟩
  | .number _ :: _, hadj, _ => by simp [adjacent?] at hadj
  | [.operator _], _, hlast => by simp [Token.isOperator] at hlast
  | .operator _ :: .operator _ :: _, hadj, _ => by simp [adjacent?] at hadj
  | .operator op :: .number y :: rest, hadj, hlast => by
    simp only [adjacent?] at hadj
    simp only [List.getLast?_cons_cons] at hlast
    obtain ⟨links, rfl⟩ := exists_links_of_adjacent?_eq_none y (position + 2) rest hadj hlast
    exact ⟨(op, y) :: links, rfl⟩

theorem findIdx?_chainTokens_eq_none_iff {x : Binary64} {links : List Link} :
    (chainTokens x links).findIdx? Token.isNonFinite = none ↔
      x.isFinite = true ∧ ∀ link ∈ links, link.2.isFinite = true := by
  induction links generalizing x with
  | nil => simp [chainTokens, Token.isNonFinite]
  | cons link links ih =>
    have ih := ih (x := link.2)
    rw [List.findIdx?_eq_none_iff] at ih ⊢
    rw [chainTokens, linkTokens_cons, List.forall_mem_cons, List.forall_mem_cons, ih]
    simp [Token.isNonFinite]

/-- The accepted token lists are the chains of finite numbers. -/
theorem checkArrangement_eq_ok_iff {tokens : List Token} :
    checkArrangement tokens = .ok () ↔
      ∃ x links, tokens = chainTokens x links ∧ x.isFinite = true ∧
        ∀ link ∈ links, link.2.isFinite = true := by
  constructor
  · intro h
    match tokens with
    | [] => simp [checkArrangement] at h
    | .operator _ :: _ => simp [checkArrangement, Token.isOperator] at h
    | .number x :: rest =>
      simp only [checkArrangement, Token.isOperator, Bool.false_eq_true, if_false] at h
      cases hadj : adjacent? (.number x :: rest) 1 with
      | some e => simp [hadj] at h
      | none =>
        simp only [hadj] at h
        split_ifs at h with hlast
        obtain ⟨links, rfl⟩ :=
          exists_links_of_adjacent?_eq_none x 1 rest hadj (by simpa using hlast)
        refine ⟨x, links, rfl, findIdx?_chainTokens_eq_none_iff.1 ?_⟩
        cases hidx : (chainTokens x links).findIdx? Token.isNonFinite with
        | some position =>
          rw [chainTokens] at hidx
          simp [hidx] at h
        | none => rfl
  · rintro ⟨x, links, rfl, hfinite⟩
    obtain ⟨y, hadj, hlast⟩ := exists_last_chainTokens x links
    have hadj := hadj [] 1
    have hlast := hlast []
    have hidx := findIdx?_chainTokens_eq_none_iff.2 hfinite
    rw [List.append_nil] at hadj hlast
    unfold checkArrangement
    rw [chainTokens] at *
    simp [Token.isOperator, hadj, hlast, hidx, adjacent?]

theorem exists_links_of_linkTokens_append {links all : List Link} {tail : List Token}
    (h : linkTokens links ++ tail = linkTokens all) :
    ∃ more, all = links ++ more ∧ tail = linkTokens more := by
  induction links generalizing all with
  | nil => exact ⟨all, rfl, h⟩
  | cons link links ih =>
    cases all with
    | nil => simp at h
    | cons link' all =>
      simp only [linkTokens_cons, chainTokens, List.cons_append, List.cons.injEq,
        Token.operator.injEq, Token.number.injEq] at h
      obtain ⟨hop, hx, hrest⟩ := h
      obtain ⟨more, rfl, htail⟩ := ih hrest
      exact ⟨more, by rw [Prod.ext hop hx, List.cons_append], htail⟩

/-- An accepted list goes on with finite links and nothing else. -/
theorem checkArrangement_chainTokens_append_iff {x : Binary64} {links : List Link}
    {tail : List Token} (hx : x.isFinite = true) (hlinks : ∀ link ∈ links, link.2.isFinite = true) :
    checkArrangement (chainTokens x links ++ tail) = .ok () ↔
      ∃ more, tail = linkTokens more ∧ ∀ link ∈ more, link.2.isFinite = true := by
  rw [checkArrangement_eq_ok_iff]
  constructor
  · rintro ⟨x', all, h, -, hall⟩
    obtain ⟨-, h⟩ := List.cons.inj h
    obtain ⟨more, rfl, htail⟩ := exists_links_of_linkTokens_append h
    exact ⟨more, htail, (List.forall_mem_append.1 hall).2⟩
  · rintro ⟨more, rfl, hmore⟩
    exact ⟨x, links ++ more, chainTokens_append x links more, hx,
      List.forall_mem_append.2 ⟨hlinks, hmore⟩⟩

end FourFunction
