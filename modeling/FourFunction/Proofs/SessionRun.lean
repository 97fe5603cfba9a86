import FourFunction.Calculator.Session
import Mathlib.Tactic

/-!
# Runs of a session

A run of operations makes a change for each key that is accepted (`Session.changesOf`).
`Session.run_induction` reduces a statement about all runs to single changes.
-/

namespace FourFunction

inductive Operation where
  | press (key : Key)
  | pressChar (c : Char)
  | pressText (keys : String)
  | evaluate
  | clear
  | wait (time : UInt64)
deriving DecidableEq

inductive Change where
  | typed (c : Char)
  | answered (expression : String) (value : Binary64)
  /-- The expression on the display had no value. -/
  | failed (expression : String) (error : CalcError)
  | cleared
deriving DecidableEq

namespace Session

/-- A refused key leaves the session as it is. -/
def perform (s : Session) : Operation → Session
  | .press key => match s.press key with
    | .ok s' => s'
    | .error _ => s
  | .pressChar c => match s.pressChar c with
    | .ok s' => s'
    | .error _ => s
  | .pressText keys => (s.pressText keys).2
  | .evaluate => s.evaluate.2
  | .clear => s.clear
  | .wait time => { s with clock := time }

def performAll (s : Session) (ops : List Operation) : Session := ops.foldl perform s

def evaluation (s : Session) : Change :=
  match s.evaluate.1 with
  | .ok value => .answered s.buffer value
  | .error e => .failed s.buffer e

/-- A refused key makes no change. -/
def keyChange? (s : Session) : Key → Option Change
  | .equals => some s.evaluation
  | .clear => some .cleared
  | key => key.char?.map .typed

/-- The changes that the keys of characters make, up to the first one that is refused. -/
def charChanges (s : Session) : List Char → List Change
  | [] => []
  | c :: cs =>
    match s.pressChar c with
    | .ok s' => ((Key.ofChar? c).bind s.keyChange?).toList ++ s'.charChanges cs
    | .error _ => []

def changes (s : Session) : Operation → List Change
  | .press key => (s.keyChange? key).toList
  | .pressChar c => s.charChanges [c]
  | .pressText keys => s.charChanges (keys.toList.filter fun c => !isBlank c)
  | .evaluate => [s.evaluation]
  | .clear => [.cleared]
  | .wait _ => []

def changesOf (s : Session) : List Operation → List Change
  | [] => []
  | op :: ops => s.changes op ++ (s.perform op).changesOf ops

/-! ### Induction over runs -/

theorem exists_press_eq_ok_iff {s : Session} {key : Key} :
    (∃ s', s.press key = .ok s') ↔ ∃ change, s.keyChange? key = some change := by
  cases key with
  | digit d =>
    simp only [press, keyChange?, Key.char?]
    split_ifs <;> simp
  | point | operator op | equals | clear => simp [press, keyChange?, Key.char?]

/-- A key that types adds a digit or a point, or an operator. -/
theorem press_typed {s s' : Session} {key : Key} {c : Char} (hc : key.char? = some c)
    (hpress : s.press key = .ok s') :
    startsNumber c = true ∧ s' = s.appendDigit c ∨
      ∃ op : Operator, c = op.symbol ∧ s' = s.append c := by
  cases key with
  | digit d =>
    simp only [press, Key.char?] at hpress hc
    split_ifs at hpress hc with hd
    obtain rfl := Option.some.inj hc
    obtain rfl := Except.ok.inj hpress
    have hlt : d.toNat < 10 := Nat.lt_succ_of_le hd
    exact .inl ⟨by simp [startsNumber, Nat.isDigit_digitChar, hlt], rfl⟩
  | point =>
    obtain rfl := Option.some.inj hc
    obtain rfl := Except.ok.inj hpress
    exact .inl ⟨rfl, rfl⟩
  | operator op =>
    obtain rfl := Option.some.inj hc
    obtain rfl := Except.ok.inj hpress
    exact .inr ⟨op, rfl, rfl⟩
  | equals | clear => cases hc

section

variable {P : Session → List Change → Prop}
  (htyped : ∀ s cs key c s', P s cs → key.char? = some c → s.press key = .ok s' →
    P s' (cs ++ [.typed c]))
  (hevaluate : ∀ s cs, P s cs → P s.evaluate.2 (cs ++ [s.evaluation]))
  (hclear : ∀ s cs, P s cs → P s.clear (cs ++ [.cleared]))
  (hwait : ∀ s cs time, P s cs → P { s with clock := time } cs)

include htyped hevaluate hclear

theorem press_induction {s s' : Session} {cs : List Change} {key : Key} (h : P s cs)
    (hpress : s.press key = .ok s') : P s' (cs ++ (s.keyChange? key).toList) := by
  have htype : ∀ c, key.char? = some c → P s' (cs ++ [.typed c]) := fun c hc =>
    htyped s cs key c s' h hc hpress
  obtain ⟨change, hchange⟩ := exists_press_eq_ok_iff.1 ⟨s', hpress⟩
  cases key with
  | equals =>
    obtain rfl := Except.ok.inj hpress
    exact hevaluate s cs h
  | clear =>
    obtain rfl := Except.ok.inj hpress
    exact hclear s cs h
  | digit d =>
    simp only [keyChange?] at hchange ⊢
    obtain ⟨c, hc, rfl⟩ := Option.map_eq_some_iff.1 hchange
    rw [hchange]
    exact htype c hc
  | point => exact htype '.' rfl
  | operator op => exact htype op.symbol rfl

theorem pressChars_induction {s : Session} {cs : List Change} (h : P s cs) (keys : List Char) :
    P (s.pressChars keys).2 (cs ++ s.charChanges keys) := by
  induction keys generalizing s cs with
  | nil => simpa [pressChars, charChanges] using h
  | cons c keys ih =>
    cases hpress : s.pressChar c with
    | error e => simpa [pressChars, charChanges, hpress] using h
    | ok s' =>
      simp only [pressChars, charChanges, hpress]
      rw [← List.append_assoc]
      refine ih ?_
      cases hkey : Key.ofChar? c with
      | none => simp [pressChar, hkey] at hpress
      | some key =>
        simp only [pressChar, hkey] at hpress
        exact press_induction htyped hevaluate hclear h hpress

include hwait

theorem perform_induction {s : Session} {cs : List Change} (h : P s cs) (op : Operation) :
    P (s.perform op) (cs ++ s.changes op) := by
  cases op with
  | press key =>
    cases hpress : s.press key with
    | ok s' =>
      simp only [perform, changes, hpress]
      exact press_induction htyped hevaluate hclear h hpress
    | error e =>
      have hnone : s.keyChange? key = none := by
        by_contra hne
        obtain ⟨s', hs'⟩ := exists_press_eq_ok_iff.2 (Option.ne_none_iff_exists'.1 hne)
        rw [hs'] at hpress
        cases hpress
      simpa [perform, changes, hpress, hnone] using h
  | pressChar c =>
    have hchars := pressChars_induction htyped hevaluate hclear h [c]
    cases hpress : s.pressChar c <;> simpa [perform, changes, pressChars, hpress] using hchars
  | pressText keys => exact pressChars_induction htyped hevaluate hclear h _
  | evaluate => exact hevaluate s cs h
  | clear => exact hclear s cs h
  | wait time => simpa [perform, changes] using hwait s cs time h

/-- What holds at first and is kept by every change holds after every run. -/
theorem run_induction {s : Session} (h : P s []) (ops : List Operation) :
    P (s.performAll ops) (s.changesOf ops) := by
  have hrun : ∀ (ops : List Operation) (s : Session) (cs : List Change), P s cs →
      P (s.performAll ops) (cs ++ s.changesOf ops) := by
    intro ops
    induction ops with
    | nil =>
      intro s cs h
      simpa [performAll, changesOf] using h
    | cons op ops ih =>
      intro s cs h
      rw [changesOf, ← List.append_assoc]
      exact ih _ _ (perform_induction htyped hevaluate hclear hwait h op)
  exact hrun ops s [] h

end

end Session

end FourFunction
