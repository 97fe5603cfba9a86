import FourFunction.Proofs.TypedOntoAnswer

/-!
# Where a buffer comes from

The buffer of a session is typed from scratch, or goes on from an answer: digits and points typed
onto it, then an operator and whatever is typed behind that (`Session.Origin`).
-/

namespace FourFunction

namespace Session

/-! ### Going on from an answer -/

/-- What is carried when digits and points were typed onto an answer. -/
def carryOnto (answer : Binary64) (onto : List Char) : Option Carry :=
  let literal := answer.resultText ++ String.ofList onto
  if onto = [] then some ⟨answer, literal.length⟩
  else ((Binary64.ofText? literal).filter Binary64.isFinite).map (⟨·, literal.length⟩)

theorem length_of_carryOnto {answer : Binary64} {onto : List Char} {carry : Carry}
    (h : carryOnto answer onto = some carry) :
    carry.length = (answer.resultText ++ String.ofList onto).length := by
  unfold carryOnto at h
  dsimp only at h
  split_ifs at h
  · rw [← Option.some.inj h]
  · obtain ⟨x, -, rfl⟩ := Option.map_eq_some_iff.1 h
    rfl

theorem carryOnto_eq_none_iff {answer : Binary64} {onto : List Char} :
    carryOnto answer onto = none ↔ onto ≠ [] ∧ ¬ReadsFinite (answer.resultText.toList ++ onto) := by
  rw [ReadsFinite, String.ofList_append, String.ofList_toList, carryOnto]
  by_cases hempty : onto = []
  · simp [hempty]
  · simp [hempty]

/-- Digits and points were typed onto an answer, and then further characters behind it. -/
structure GoesOnFrom (s : Session) (answer : Binary64) (onto behind : List Char) : Prop where
  isFinite_answer : answer.isFinite = true
  startsNumber_of_mem : ∀ c ∈ onto, startsNumber c = true
  head_behind : ∀ c ∈ behind.head?, ∃ op : Operator, c = op.symbol
  mem_behind : ∀ c ∈ behind, IsKeyChar c
  lastError_eq : s.lastError = none
  buffer_eq : s.buffer = answer.resultText ++ String.ofList onto ++ String.ofList behind
  carry_eq : s.carry = carryOnto answer onto

section

variable {s : Session} {answer : Binary64} {onto behind : List Char} {c : Char}

theorem goesOnFrom_of_answer (hanswer : answer.isFinite = true)
    (hbuffer : s.buffer = answer.resultText)
    (hcarry : s.carry = some ⟨answer, answer.resultText.length⟩) (herror : s.lastError = none) :
    s.GoesOnFrom answer [] [] where
  isFinite_answer := hanswer
  startsNumber_of_mem := by simp
  head_behind := by simp
  mem_behind := by simp
  lastError_eq := herror
  buffer_eq := by simp [hbuffer]
  carry_eq := by simp [hcarry, carryOnto]

theorem HoldsTyped.goesOnFrom (h : s.HoldsTyped answer onto) : s.GoesOnFrom answer onto [] where
  isFinite_answer := h.isFinite_answer
  startsNumber_of_mem := h.startsNumber_of_mem
  head_behind := by simp
  mem_behind := by simp
  lastError_eq := h.lastError_eq
  buffer_eq := by rw [h.buffer_eq, String.ofList_nil, String.append_empty]
  carry_eq := by
    rw [h.carry_eq, carryBuffer, h.buffer_eq, carryOnto, if_neg h.typed_ne_nil]

namespace GoesOnFrom

theorem holdsTyped (h : s.GoesOnFrom answer onto []) (hne : onto ≠ []) :
    s.HoldsTyped answer onto := by
  have hbuffer : s.buffer = answer.resultText ++ String.ofList onto := by
    rw [h.buffer_eq, String.ofList_nil, String.append_empty]
  refine ⟨h.isFinite_answer, hne, h.startsNumber_of_mem, h.lastError_eq, hbuffer, ?_⟩
  rw [h.carry_eq, carryBuffer, hbuffer, carryOnto, if_neg hne]

theorem toList_buffer (h : s.GoesOnFrom answer onto behind) :
    s.buffer.toList = answer.resultText.toList ++ onto ++ behind := by
  rw [h.buffer_eq]
  simp

theorem append (h : s.GoesOnFrom answer onto behind) (hc : IsKeyChar c)
    (hbehind : behind ≠ [] ∨ ∃ op : Operator, c = op.symbol) :
    (s.append c).GoesOnFrom answer onto (behind ++ [c]) where
  isFinite_answer := h.isFinite_answer
  startsNumber_of_mem := h.startsNumber_of_mem
  head_behind := by
    cases behind with
    | nil => simpa using hbehind
    | cons first rest => simpa using h.head_behind
  mem_behind := List.forall_mem_append.2 ⟨h.mem_behind, List.forall_mem_singleton.2 hc⟩
  lastError_eq := s.lastError_append c
  buffer_eq := by
    rw [buffer_append h.lastError_eq, h.buffer_eq, String.ofList_append, String.append_assoc]
  carry_eq := (carry_append h.lastError_eq c).trans h.carry_eq

theorem bufferIsCarry (h : s.GoesOnFrom answer onto behind) (hne : behind ≠ []) :
    s.bufferIsCarry = false := by
  rw [Session.bufferIsCarry, h.carry_eq]
  cases hcarry : carryOnto answer onto with
  | none => rfl
  | some carry =>
    have hlength : s.buffer.length = carry.length + behind.length := by
      rw [length_of_carryOnto hcarry, h.buffer_eq, String.length_append, String.length_ofList]
    have hpos := List.length_pos_iff.2 hne
    simp only [Option.any_some, beq_eq_false_iff_ne, hlength]
    omega

theorem appendDigit (h : s.GoesOnFrom answer onto behind) (hc : startsNumber c = true) :
    ∃ onto' behind', (s.appendDigit c).GoesOnFrom answer onto' behind' ∧
      onto' ++ behind' = onto ++ behind ++ [c] := by
  by_cases hbehind : behind = []
  · subst hbehind
    by_cases honto : onto = []
    · subst honto
      have hbuffer : s.buffer = answer.resultText := by simpa using h.buffer_eq
      have hcarry : s.carry = some ⟨answer, answer.resultText.length⟩ := by
        simpa [carryOnto] using h.carry_eq
      have hholds := holdsTyped_of_answer h.isFinite_answer hbuffer hcarry h.lastError_eq hc
      exact ⟨[c], [], hholds.goesOnFrom, rfl⟩
    · exact ⟨onto ++ [c], [], ((h.holdsTyped honto).appendDigit hc).goesOnFrom, by simp⟩
  · refine ⟨onto, behind ++ [c], ?_, (List.append_assoc _ _ _).symm⟩
    rw [Session.appendDigit, h.bufferIsCarry hbehind]
    exact h.append (.inl hc) (.inl hbehind)

end GoesOnFrom

end

/-! ### Runs -/

/-- Where the buffer of a session comes from, by the changes made so far. -/
inductive Origin (s : Session) (changes : List Change) : Prop where
  | scratch (carry_eq : s.carry = none) (isKeyChar_of_mem : ∀ c ∈ s.buffer.toList, IsKeyChar c)
  | answer {before : List Change} {expression : String} {answer : Binary64}
      {onto behind : List Char} (goesOn : s.GoesOnFrom answer onto behind)
      (changes_eq : changes =
        before ++ .answered expression answer :: (onto ++ behind).map .typed)

theorem origin_append_of_scratch {s : Session} {changes : List Change} (hcarry : s.carry = none)
    (hchars : ∀ c ∈ s.buffer.toList, IsKeyChar c) {c : Char} (hc : IsKeyChar c) :
    (s.append c).Origin changes := by
  unfold append
  cases s.lastError with
  | some e => exact .scratch rfl (by simpa using hc)
  | none =>
    refine .scratch hcarry ?_
    rw [String.toList_push, List.forall_mem_append, List.forall_mem_singleton]
    exact ⟨hchars, hc⟩

/-- A key that types keeps where the buffer comes from. -/
theorem Origin.typed {s s' : Session} {changes : List Change} {key : Key} {c : Char}
    (h : s.Origin changes) (hc : key.char? = some c) (hpress : s.press key = .ok s') :
    s'.Origin (changes ++ [.typed c]) := by
  obtain ⟨hstart, rfl⟩ | ⟨op, rfl, rfl⟩ := press_typed hc hpress
  · cases h with
    | scratch hcarry hchars =>
      have hwhole : s.bufferIsCarry = false := by rw [bufferIsCarry, hcarry, Option.any_none]
      rw [appendDigit, hwhole]
      exact origin_append_of_scratch hcarry hchars (.inl hstart)
    | @answer before expression answer onto behind hgoes hchanges =>
      obtain ⟨onto', behind', hgoes', htyped⟩ := hgoes.appendDigit hstart
      have hchanged : changes ++ [.typed c] =
          before ++ .answered expression answer :: (onto' ++ behind').map .typed := by
        simp [hchanges, htyped]
      exact .answer hgoes' hchanged
  · cases h with
    | scratch hcarry hchars => exact origin_append_of_scratch hcarry hchars (.inr ⟨op, rfl⟩)
    | @answer before expression answer onto behind hgoes hchanges =>
      have hchanged : changes ++ [.typed op.symbol] = before ++
          .answered expression answer :: (onto ++ (behind ++ [op.symbol])).map .typed := by
        simp [hchanges]
      exact .answer (hgoes.append (.inr ⟨op, rfl⟩) (.inr ⟨op, rfl⟩)) hchanged

theorem origin_evaluate (s : Session) (changes : List Change) :
    s.evaluate.2.Origin (changes ++ [s.evaluation]) := by
  unfold evaluation evaluate
  cases hvalue : evaluateBuffer s.buffer s.carry with
  | error e => exact .scratch rfl (by simp)
  | ok value =>
    exact .answer (goesOnFrom_of_answer (isFinite_of_evaluateBuffer hvalue) rfl rfl rfl) rfl

theorem Origin.wait {s : Session} {changes : List Change} (h : s.Origin changes) (time : UInt64) :
    { s with clock := time }.Origin changes := by
  cases h with
  | scratch hcarry hchars => exact .scratch hcarry hchars
  | answer hgoes hchanges => exact .answer { hgoes with } hchanges

theorem origin_performAll (style : ErrorStyle) (ops : List Operation) :
    ((new style).performAll ops).Origin ((new style).changesOf ops) := by
  refine run_induction (P := Origin) ?_ ?_ ?_ ?_ ?_ ops
  · intro s cs key c s' h hc hpress
    exact h.typed hc hpress
  · intro s cs _
    exact s.origin_evaluate cs
  · intro s cs _
    exact .scratch rfl (by simp [Session.clear])
  · intro s cs time h
    exact h.wait time
  · exact .scratch rfl (by simp [new])

end Session

end FourFunction
