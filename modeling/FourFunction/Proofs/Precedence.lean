import FourFunction.Expression.Evaluation
import FourFunction.Proofs.LinkFold

/-!
# Precedence

An accepted token list has one parse tree of the grammar

* `expression ::= term (('+' | '-') term)*`
* `term ::= NUMBER (('*' | '/') NUMBER)*`

and the one-pass evaluation is the evaluation of that tree from left to right: the first operation
that fails in this order is the failure (`evaluate_eq_value`).
-/

namespace FourFunction

/-! ### Parse trees -/

structure Term where
  first : Binary64
  factors : List ({op : Operator // op.isAdditive = false} × Binary64)

structure ParseTree where
  first : Term
  terms : List ({op : Operator // op.isAdditive = true} × Term)

def Term.links (t : Term) : List Link := t.factors.map fun factor => (factor.1.val, factor.2)

def termLinks (terms : List ({op : Operator // op.isAdditive = true} × Term)) : List Link :=
  terms.flatMap fun term => (term.1.val, term.2.first) :: term.2.links

namespace ParseTree

def links (e : ParseTree) : List Link := e.first.links ++ termLinks e.terms

def tokens (e : ParseTree) : List Token := chainTokens e.first.first e.links

/-- A link in front of an expression adds a factor to its first term, or a term of its own. -/
def ofLinks (x : Binary64) : List Link → ParseTree
  | [] => ⟨⟨x, []⟩, []⟩
  | (op, y) :: links =>
    let e := ofLinks y links
    if h : op.isAdditive = true then ⟨⟨x, []⟩, (⟨op, h⟩, e.first) :: e.terms⟩
    else ⟨⟨x, (⟨op, by simpa using h⟩, e.first.first) :: e.first.factors⟩, e.terms⟩

theorem first_first_ofLinks (x : Binary64) (links : List Link) :
    (ofLinks x links).first.first = x := by
  cases links with
  | nil => rfl
  | cons link links =>
    simp only [ofLinks]
    split_ifs <;> rfl

theorem links_ofLinks (x : Binary64) (links : List Link) : (ofLinks x links).links = links := by
  induction links generalizing x with
  | nil => rfl
  | cons link links ih =>
    obtain ⟨op, y⟩ := link
    have hfirst := first_first_ofLinks y links
    have hlinks := ih y
    simp only [ParseTree.links, Term.links] at hlinks
    simp only [ofLinks]
    split_ifs with hop
    · simp [ParseTree.links, Term.links, termLinks, hfirst] at hlinks ⊢
      exact hlinks
    · simp [ParseTree.links, Term.links, hfirst, hlinks]

theorem tokens_ofLinks (x : Binary64) (links : List Link) :
    (ofLinks x links).tokens = chainTokens x links := by
  rw [tokens, first_first_ofLinks, links_ofLinks]

theorem ofLinks_links (e : ParseTree) : ofLinks e.first.first e.links = e := by
  obtain ⟨⟨x, factors⟩, terms⟩ := e
  -- the outer induction is on the terms, which consume the links from the right
  induction terms generalizing x factors with
  | nil =>
    induction factors generalizing x with
    | nil => rfl
    | cons factor factors ih =>
      obtain ⟨⟨op, hop⟩, y⟩ := factor
      have ih := ih y
      simp only [ParseTree.links, Term.links, termLinks, List.flatMap_nil, List.append_nil,
        List.map_cons] at ih ⊢
      simp [ofLinks, ih, hop]
  | cons term terms ihterms =>
    induction factors generalizing x with
    | nil =>
      obtain ⟨⟨op, hop⟩, ⟨y, factors⟩⟩ := term
      have ih := ihterms y factors
      simp only [ParseTree.links, Term.links, termLinks, List.map_nil, List.nil_append,
        List.flatMap_cons, List.cons_append] at ih ⊢
      simp [ofLinks, ih, hop]
    | cons factor factors ih =>
      obtain ⟨⟨op, hop⟩, y⟩ := factor
      have ih := ih y
      simp only [ParseTree.links, Term.links, List.map_cons, List.cons_append] at ih ⊢
      simp [ofLinks, ih, hop]

theorem tokens_injective : Function.Injective tokens := by
  intro e e' h
  obtain ⟨hfirst, hlinks⟩ := chainTokens_inj.1 h
  rw [← ofLinks_links e, ← ofLinks_links e', hfirst, hlinks]

end ParseTree

/-! ### Values of trees -/

section

variable (apply : Arithmetic)

def Term.value (t : Term) : Except CalcError Binary64 :=
  t.factors.foldlM (fun product factor => apply factor.1 product factor.2) t.first

/-- Each term is folded when its turn comes. -/
def ParseTree.value (e : ParseTree) : Except CalcError Binary64 := do
  let sum ← e.first.value apply
  e.terms.foldlM (fun sum term => do apply term.1 sum (← term.2.value apply)) sum

/-- All terms are folded first, and then the sums. -/
def ParseTree.twoPassValue (e : ParseTree) : Except CalcError Binary64 := do
  let first ← e.first.value apply
  let values ← e.terms.mapM fun term => (term.2.value apply).map (term.1.val, ·)
  values.foldlM (fun sum value => apply value.1 sum value.2) first

theorem foldlM_terms_eq_ok_iff (terms : List ({op : Operator // op.isAdditive = true} × Term))
    (sum v : Binary64) :
    terms.foldlM (fun sum term => do apply term.1 sum (← term.2.value apply)) sum = .ok v ↔
      ∃ values, (terms.mapM fun term => (term.2.value apply).map (term.1.val, ·)) = .ok values ∧
        values.foldlM (fun sum value => apply value.1 sum value.2) sum = .ok v := by
  induction terms generalizing sum with
  | nil => simp
  | cons term terms ih =>
    rw [List.foldlM_cons, List.mapM_cons]
    simp only [bind_eq_ok_iff, map_eq_ok_iff, ih, pure_eq_ok, Except.ok.injEq]
    constructor
    · rintro ⟨sum', ⟨t, ht, hsum⟩, values, hvalues, hv⟩
      refine ⟨_, ⟨_, ⟨t, ht, rfl⟩, values, hvalues, rfl⟩, ?_⟩
      rw [List.foldlM_cons]
      exact bind_eq_ok_iff.2 ⟨sum', hsum, hv⟩
    · rintro ⟨_, ⟨_, ⟨t, ht, rfl⟩, values, hvalues, rfl⟩, hv⟩
      rw [List.foldlM_cons] at hv
      obtain ⟨sum', hsum, hv⟩ := bind_eq_ok_iff.1 hv
      exact ⟨sum', ⟨t, ht, hsum⟩, values, hvalues, hv⟩

/-- The two passes succeed with the same values as the fold from left to right. -/
theorem ParseTree.value_eq_ok_iff (e : ParseTree) (v : Binary64) :
    e.value apply = .ok v ↔ e.twoPassValue apply = .ok v := by
  simp only [ParseTree.value, ParseTree.twoPassValue, bind_eq_ok_iff, foldlM_terms_eq_ok_iff]

/-! ### The one-pass evaluation -/

theorem readLinks_factors (pending : Pending) (t : Term) :
    readLinks apply (pending, t.first) t.links =
      (t.value apply).map fun term => (pending, term) := by
  obtain ⟨x, factors⟩ := t
  simp only [Term.links, Term.value]
  -- each factor changes the term read so far, which takes the place of `x`
  induction factors generalizing x with
  | nil => rfl
  | cons factor factors ih =>
    obtain ⟨⟨op, hop⟩, y⟩ := factor
    rw [List.map_cons, readLinks_cons, readLink, if_neg (by simp [hop]), List.foldlM_cons]
    cases hproduct : apply op x y with
    | error e => simp
    | ok product => exact ih product

theorem readLinks_terms (pending : Pending) (x : Binary64)
    (terms : List ({op : Operator // op.isAdditive = true} × Term)) :
    (readLinks apply (pending, x) (termLinks terms) >>= fun read => settle apply read.1 read.2) =
      settle apply pending x >>= fun sum =>
        terms.foldlM (fun sum term => do apply term.1 sum (← term.2.value apply)) sum := by
  induction terms generalizing pending x with
  | nil => cases h : settle apply pending x <;> simp [termLinks, h]
  | cons term terms ih =>
    obtain ⟨⟨op, hop⟩, t⟩ := term
    have hlinks : termLinks ((⟨op, hop⟩, t) :: terms) =
        (op, t.first) :: (t.links ++ termLinks terms) := rfl
    rw [hlinks, readLinks_cons, readLink, if_pos hop]
    cases settle apply pending x with
    | error e => rfl
    | ok sum =>
      simp only [map_ok, ok_bind]
      rw [readLinks_append, readLinks_factors, List.foldlM_cons, bind_assoc]
      cases t.value apply with
      | error e => rfl
      | ok term => exact ih (some (sum, op)) term

theorem evaluateWith_tokens (e : ParseTree) (h : checkArrangement e.tokens = .ok ()) :
    evaluateWith apply e.tokens = e.value apply := by
  obtain ⟨x, links, htokens, hx, hlinks⟩ := checkArrangement_eq_ok_iff.1 h
  obtain ⟨rfl, rfl⟩ := chainTokens_inj.1 htokens
  rw [ParseTree.tokens, evaluateWith_chainTokens apply hx hlinks, ParseTree.links,
    readLinks_append, readLinks_factors, ParseTree.value]
  cases e.first.value apply with
  | error e => rfl
  | ok term => exact readLinks_terms apply none term e.terms

end

/-- An accepted token list has exactly one tree, and its evaluation is that of the tree from left to
right: the same value or first failure.  Two passes give the same values. -/
theorem evaluate_eq_value (tokens : List Token) (h : checkArrangement tokens = .ok ()) :
    ∃ e : ParseTree, (e.tokens = tokens ∧ ∀ e' : ParseTree, e'.tokens = tokens → e' = e) ∧
      evaluate tokens = e.value Operator.apply ∧
      (∀ v, evaluate tokens = .ok v ↔ e.twoPassValue Operator.apply = .ok v) ∧
      ∀ apply : Arithmetic, evaluateWith apply tokens = e.value apply ∧
        ∀ v, evaluateWith apply tokens = .ok v ↔ e.twoPassValue apply = .ok v := by
  obtain ⟨x, links, rfl, -⟩ := checkArrangement_eq_ok_iff.1 h
  obtain ⟨e, he⟩ : ∃ e : ParseTree, e.tokens = chainTokens x links :=
    ⟨_, ParseTree.tokens_ofLinks x links⟩
  have hvalue : ∀ apply, evaluateWith apply (chainTokens x links) = e.value apply := by
    rw [← he] at h ⊢
    exact fun apply => evaluateWith_tokens apply e h
  have hok : ∀ apply v, evaluateWith apply (chainTokens x links) = .ok v ↔
      e.twoPassValue apply = .ok v := by
    intro apply v
    rw [hvalue apply]
    exact e.value_eq_ok_iff apply v
  exact ⟨e, ⟨he, fun e' he' => ParseTree.tokens_injective (he'.trans he.symm)⟩, hvalue _, hok _,
    fun apply => ⟨hvalue apply, hok apply⟩⟩

/-- From left to right the sum fails first, and in two passes the division. -/
def overflowingSum : List Token :=
  [.number (.ofBits 0x7fefffffffffffff), .operator .add, .number (.ofBits 0x7fefffffffffffff),
    .operator .sub, .number (.ofBits 0x3ff0000000000000), .operator .div, .number .zero]

theorem evaluate_overflowingSum :
    checkArrangement overflowingSum = .ok () ∧ evaluate overflowingSum = .error .overflow ∧
      ∃ e : ParseTree,
        (e.tokens = overflowingSum ∧ ∀ e' : ParseTree, e'.tokens = overflowingSum → e' = e) ∧
        evaluate overflowingSum = e.value Operator.apply ∧
        (∀ v, evaluate overflowingSum = .ok v ↔ e.twoPassValue Operator.apply = .ok v) ∧
        ∀ apply : Arithmetic, evaluateWith apply overflowingSum = e.value apply ∧
          ∀ v, evaluateWith apply overflowingSum = .ok v ↔ e.twoPassValue apply = .ok v := by
  have h : checkArrangement overflowingSum = .ok () := by decide +kernel
  exact ⟨h, by decide +kernel, evaluate_eq_value overflowingSum h⟩

end FourFunction
