import FourFunction.Proofs.Chaining
import FourFunction.Proofs.FiniteResults
import FourFunction.Proofs.ShownResult

/-!
# What a session holds

A session is `Coherent` if an error leaves nothing else on the display, and a carried number is
finite and stands at the front of the buffer by its text.  Every run keeps it so
(`Session.coherent_performAll`).
-/

namespace FourFunction

/-- Whether a key types the character. -/
def IsKeyChar (c : Char) : Prop := startsNumber c = true ∨ ∃ op : Operator, c = op.symbol

/-- The number stands at the front by the text `shown`, with `behind` typed behind it. -/
structure Carry.Fronts (carry : Carry) (shown behind : List Char) : Prop where
  shown_ne_nil : shown ≠ []
  length_eq : shown.length = carry.length
  isFinite_value : carry.value.isFinite = true
  stands_for : String.ofList shown = carry.value.resultText ∨
    Binary64.ofText? (String.ofList shown) = some carry.value
  head_behind : ∀ c ∈ behind.head?, ∃ op : Operator, c = op.symbol
  mem_behind : ∀ c ∈ behind, IsKeyChar c

namespace Session

structure Coherent (s : Session) : Prop where
  empty_of_error : s.lastError ≠ none → s.buffer = "" ∧ s.carry = none
  fronts : ∀ carry ∈ s.carry, ∃ shown behind, s.buffer.toList = shown ++ behind ∧
    carry.Fronts shown behind

theorem coherent_of_carry_eq_none {s : Session} (hcarry : s.carry = none)
    (herror : s.lastError ≠ none → s.buffer = "") : s.Coherent :=
  ⟨fun h => ⟨herror h, hcarry⟩, by simp [hcarry]⟩

theorem carry_carryBuffer_eq_some_iff {s : Session} {carry : Carry} :
    s.carryBuffer.carry = some carry ↔
      ∃ x, Binary64.ofText? s.buffer = some x ∧ x.isFinite = true ∧
        ⟨x, s.buffer.length⟩ = carry := by
  simp only [carryBuffer, Option.map_eq_some_iff, Option.filter_eq_some_iff, and_assoc]

namespace Coherent

variable {s : Session}

theorem length_le (h : s.Coherent) : ∀ carry ∈ s.carry, carry.length ≤ s.buffer.length := by
  intro carry hcarry
  obtain ⟨shown, behind, hbuffer, hfronts⟩ := h.fronts carry hcarry
  rw [← String.length_toList, hbuffer, List.length_append, hfronts.length_eq]
  exact Nat.le_add_right _ _

theorem behind_ne_nil {carry : Carry} {shown behind : List Char} (hcarry : s.carry = some carry)
    (hbuffer : s.buffer.toList = shown ++ behind) (hfronts : carry.Fronts shown behind)
    (hwhole : s.bufferIsCarry = false) : behind ≠ [] := by
  rintro rfl
  have hlength : s.buffer.length = carry.length := by
    rw [← String.length_toList, hbuffer, List.append_nil, hfronts.length_eq]
  simp [bufferIsCarry, hcarry, hlength] at hwhole

/-! ### Single changes -/

/-- A character goes behind a carried number if text is there already, or if it is an operator. -/
theorem append (h : s.Coherent) {c : Char} (hc : IsKeyChar c)
    (hbehind : s.bufferIsCarry = false ∨ ∃ op : Operator, c = op.symbol) :
    (s.append c).Coherent := by
  unfold Session.append
  cases herror : s.lastError with
  | some e => exact coherent_of_carry_eq_none rfl fun h => absurd rfl h
  | none =>
    refine ⟨fun h => absurd rfl h, fun carry hcarry => ?_⟩
    obtain ⟨shown, behind, hbuffer, hfronts⟩ := h.fronts carry hcarry
    refine ⟨shown, behind ++ [c], by simp [hbuffer], ?_⟩
    refine { hfronts with head_behind := ?_, mem_behind := ?_ }
    · cases behind with
      | nil =>
        obtain hwhole | hop := hbehind
        · exact absurd rfl (behind_ne_nil (s := s) hcarry hbuffer hfronts hwhole)
        · simpa using hop
      | cons first rest => simpa using hfronts.head_behind
    · rw [List.forall_mem_append, List.forall_mem_singleton]
      exact ⟨hfronts.mem_behind, hc⟩

/-- The whole buffer, if it is carried, reads as the carried number. -/
theorem carryBuffer (herror : s.lastError = none) (hne : s.buffer ≠ "") :
    s.carryBuffer.Coherent := by
  refine ⟨fun h => absurd herror h, fun carry hcarry => ?_⟩
  obtain ⟨x, hread, hx, rfl⟩ := carry_carryBuffer_eq_some_iff.1 hcarry
  have htext : String.ofList s.buffer.toList = s.buffer := String.ofList_toList
  refine ⟨s.buffer.toList, [], (List.append_nil _).symm, ?_, String.length_toList, hx, .inr ?_,
    by simp, by simp⟩
  · rw [← String.toList_inj.ne] at hne
    exact hne
  · rw [htext]
    exact hread

theorem appendDigit (h : s.Coherent) {c : Char} (hc : startsNumber c = true) :
    (s.appendDigit c).Coherent := by
  unfold Session.appendDigit
  cases hwhole : s.bufferIsCarry with
  | false => exact h.append (.inl hc) (.inl hwhole)
  | true =>
    refine carryBuffer (s.lastError_append c) ?_
    unfold Session.append
    split <;> simp

theorem press (h : s.Coherent) {s' : Session} {key : Key} {c : Char} (hc : key.char? = some c)
    (hpress : s.press key = .ok s') : s'.Coherent := by
  rcases press_typed hc hpress with ⟨hstart, rfl⟩ | ⟨op, rfl, rfl⟩
  · exact h.appendDigit hstart
  · exact h.append (.inr ⟨op, rfl⟩) (.inr ⟨op, rfl⟩)

end Coherent

theorem isFinite_of_evaluateBuffer {buffer : String} {carry : Option Carry} {value : Binary64}
    (h : evaluateBuffer buffer carry = .ok value) : value.isFinite = true := by
  cases carry with
  | none => exact isFinite_of_evaluateText h
  | some carry =>
    obtain ⟨tokens, -, h⟩ := bind_eq_ok_iff.1 h
    exact isFinite_of_evaluate h

theorem coherent_evaluate (s : Session) : s.evaluate.2.Coherent := by
  unfold evaluate
  cases hvalue : evaluateBuffer s.buffer s.carry with
  | error e => exact coherent_of_carry_eq_none rfl fun _ => rfl
  | ok value =>
    have hfinite := isFinite_of_evaluateBuffer hvalue
    have hne := Binary64.resultText_ne_empty hfinite
    refine ⟨fun h => absurd rfl h, fun carry hcarry => ?_⟩
    obtain rfl := Option.some.inj hcarry
    refine ⟨value.resultText.toList, [], (List.append_nil _).symm, ?_, String.length_toList,
      hfinite, .inl String.ofList_toList, by simp, by simp⟩
    rw [← String.toList_inj.ne] at hne
    exact hne

theorem coherent_performAll (style : ErrorStyle) (ops : List Operation) :
    ((new style).performAll ops).Coherent := by
  refine run_induction (P := fun s _ => s.Coherent) ?_ ?_ ?_ ?_ ?_ ops
  · intro s cs key c s' h hc hpress
    exact h.press hc hpress
  · intro s cs _
    exact s.coherent_evaluate
  · intro s cs _
    exact coherent_of_carry_eq_none rfl fun _ => rfl
  · intro s cs time h
    exact ⟨h.empty_of_error, h.fronts⟩
  · exact coherent_of_carry_eq_none rfl fun _ => rfl

/-- With an error on the display the buffer is empty and nothing is carried.  A carried number is
finite, its length is that of a front of the buffer that reads as the number, and what stands behind
starts with an operator. -/
theorem state_after_run (style : ErrorStyle) (ops : List Operation) :
    let s := (new style).performAll ops
    (∀ e, s.lastError = some e → s.buffer = "" ∧ s.carry = none) ∧
    ∀ value length, s.carry = some ⟨value, length⟩ →
      s.lastError = none ∧ value.isFinite = true ∧ 0 < length ∧ length ≤ s.buffer.length ∧
      (String.ofList (s.buffer.toList.take length) = value.resultText ∨
        Binary64.ofText? (String.ofList (s.buffer.toList.take length)) = some value) ∧
      (∀ c, s.buffer.toList[length]? = some c → ∃ op : Operator, c = op.symbol) ∧
      ∀ c ∈ s.buffer.toList.drop length,
        c.isDigit = true ∨ c = '.' ∨ ∃ op : Operator, c = op.symbol := by
  intro s
  have h : s.Coherent := coherent_performAll style ops
  refine ⟨fun e he => h.empty_of_error (by simp [he]), fun value length hcarry => ?_⟩
  obtain ⟨shown, behind, hbuffer, hfronts⟩ := h.fronts _ hcarry
  have hlength : shown.length = length := hfronts.length_eq
  have herror : s.lastError = none := by
    by_contra hne
    rw [(h.empty_of_error hne).2] at hcarry
    cases hcarry
  refine ⟨herror, hfronts.isFinite_value, ?_, h.length_le _ hcarry, ?_, ?_, ?_⟩
  · rw [← hlength]
    exact List.length_pos_iff.2 hfronts.shown_ne_nil
  · rw [hbuffer, ← hlength, List.take_left]
    exact hfronts.stands_for
  · intro c hc
    rw [hbuffer, ← hlength, List.getElem?_append_right le_rfl, Nat.sub_self,
      ← List.head?_eq_getElem?] at hc
    exact hfronts.head_behind c hc
  · intro c hc
    rw [hbuffer, ← hlength, List.drop_left] at hc
    rcases hfronts.mem_behind c hc with hstart | hop
    · rw [startsNumber, Bool.or_eq_true, beq_iff_eq] at hstart
      exact hstart.imp id .inl
    · exact .inr (.inr hop)

end Session

end FourFunction
