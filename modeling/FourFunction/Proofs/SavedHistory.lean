import FourFunction.Calculator.History
import FourFunction.Proofs.FiniteResults
import FourFunction.Proofs.JsonComposite
import Mathlib.Tactic

/-!
# Saved histories

The history of a run keeps to its capacity and holds finite results only (`History.Fits`).  Such a
history is loaded from its text, unchanged if its results are read back as they were written.
-/

namespace FourFunction

/-! ### Entries -/

namespace Entry

open Json

/-- The entry that is read where this one was written. -/
def reread (e : Entry) : Entry := { e with result := Json.reread e.result }

theorem map_reread {entries : List Entry} (hread : ∀ e ∈ entries, e.reread = e) :
    entries.map reread = entries :=
  (List.map_congr_left hread).trans (List.map_id' entries)

theorem fills_expression (e : Entry) :
    Fills fields ⟨none, none, none⟩ [("expression", quote e.expression)]
      ⟨some e.expression, none, none⟩ := by
  refine .cons rfl rfl (fun rest _ => ?_) (.nil _)
  simp [readString_quote]

theorem fills_toJson {e : Entry} (h : e.result.isFinite = true) :
    Fills fields ⟨none, none, none⟩
      [("expression", quote e.expression), ("result", Json.number e.result),
        ("timestamp", natural e.timestamp.toNat)]
      ⟨some e.expression, some (Json.reread e.result), some e.timestamp⟩ := by
  have htimestamp : Fills fields ⟨some e.expression, some (Json.reread e.result), none⟩
      [("timestamp", natural e.timestamp.toNat)]
      ⟨some e.expression, some (Json.reread e.result), some e.timestamp⟩ := by
    refine .cons rfl rfl (fun rest hrest => ?_) (.nil _)
    simp [readNatural_natural e.timestamp.toNat_lt hrest]
  have hresult : Fills fields ⟨some e.expression, none, none⟩
      [("result", Json.number e.result), ("timestamp", natural e.timestamp.toNat)]
      ⟨some e.expression, some (Json.reread e.result), some e.timestamp⟩ := by
    refine .cons rfl rfl (fun rest hrest => ?_) htimestamp
    simp [readNumber_number h hrest]
  refine .cons rfl rfl (fun rest _ => ?_) hresult
  simp [readString_quote]

theorem reads_toJson {e : Entry} (h : e.result.isFinite = true) : Reads read e.toJson e.reread where
  read := by
    intro rest _
    have hentry : Slots.entry? ⟨some e.expression, some (Json.reread e.result), some e.timestamp⟩ =
        some e.reread := rfl
    rw [read, toJson]
    exact (fills_toJson h).readRecord_eq hentry rest
  start := exists_toList_object _

/-- An entry without a finite result is refused at its result. -/
theorem read_toJson_error {e : Entry} (h : e.result.isFinite = false) (rest : List Char) :
    read (e.toJson.toList ++ rest) = .error .mismatch := by
  rw [read, toJson]
  refine e.fills_expression.readRecord_error rfl rfl (fun rest => ?_) Slots.entry? _ rest
  simp only [number_eq_null_iff.2 h, readNumber_null, map_error]

theorem isFinite_of_read {s : List Char} {e : Entry} {rest : List Char}
    (h : read s = .ok (e, rest)) : e.result.isFinite = true := by
  have hfields : ∀ field ∈ fields, ∀ (slots : Slots) (s : List Char) (slots' : Slots) rest,
      (∀ x ∈ slots.result, x.isFinite = true) → field.read slots s = .ok (slots', rest) →
        ∀ x ∈ slots'.result, x.isFinite = true := by
    intro field hfield slots s slots' rest hslots hread
    simp only [fields, List.mem_cons, List.not_mem_nil, or_false] at hfield
    -- only the second field fills the slot of the result
    obtain rfl | rfl | rfl := hfield
    · obtain ⟨_, -, heq⟩ := map_eq_ok_iff.1 hread
      obtain ⟨rfl, -⟩ := Prod.mk.inj heq
      exact hslots
    · obtain ⟨⟨x, _⟩, hx, heq⟩ := map_eq_ok_iff.1 hread
      obtain ⟨rfl, -⟩ := Prod.mk.inj heq
      rintro y hy
      obtain rfl := Option.some.inj hy
      exact isFinite_of_readNumber hx
    · obtain ⟨_, -, heq⟩ := map_eq_ok_iff.1 hread
      obtain ⟨rfl, -⟩ := Prod.mk.inj heq
      exact hslots
  obtain ⟨slots, hslots, hentry⟩ := exists_slots_of_readRecord hfields (by simp) h
  obtain ⟨_, -, hentry⟩ := Option.bind_eq_some_iff.1 hentry
  obtain ⟨result, hresult, hentry⟩ := Option.bind_eq_some_iff.1 hentry
  obtain ⟨_, -, hentry⟩ := Option.bind_eq_some_iff.1 hentry
  obtain rfl := Option.some.inj hentry
  exact hslots result hresult

theorem parse_toJson {entries : List Entry} (hfinite : ∀ e ∈ entries, e.result.isFinite = true) :
    parse (readList read) (array (entries.map toJson)) = .ok (entries.map reread) :=
  (parse_text_line fun rest _ => readList_array (fun e he => reads_toJson (hfinite e he)) rest).1

theorem isFinite_of_parse {text : String} {entries : List Entry}
    (hparse : parse (readList read) text = .ok entries) :
    ∀ e ∈ entries, e.result.isFinite = true := by
  obtain ⟨⟨entries', rest⟩, hread, hrest⟩ := bind_eq_ok_iff.1 hparse
  dsimp only at hrest
  split_ifs at hrest
  obtain rfl := Except.ok.inj hrest
  exact forall_of_readList (fun _ _ _ => isFinite_of_read) hread

end Entry

/-! ### Histories -/

namespace History

/-- A history that a file can keep for the given capacity. -/
structure Fits (h : History) (capacity : Nat) : Prop where
  capacity_eq : h.capacity = max capacity 1
  length_le : h.entries.length ≤ h.capacity
  isFinite_result : ∀ e ∈ h.entries, e.result.isFinite = true

theorem fits_empty (capacity : Nat) : (empty capacity).Fits capacity where
  capacity_eq := rfl
  length_le := Nat.zero_le _
  isFinite_result := by simp [empty]

theorem Fits.clear {h : History} {capacity : Nat} (hfits : h.Fits capacity) :
    h.clear.Fits capacity where
  capacity_eq := hfits.capacity_eq
  length_le := Nat.zero_le _
  isFinite_result := by simp [History.clear]

theorem Fits.record {h : History} {capacity : Nat} (hfits : h.Fits capacity) {e : Entry}
    (he : e.result.isFinite = true) : (h.record e).Fits capacity where
  capacity_eq := hfits.capacity_eq
  length_le := by
    have hcapacity := hfits.capacity_eq
    have hle := hfits.length_le
    simp only [History.record, List.length_append, List.length_singleton]
    split_ifs
    · rw [List.length_drop]
      omega
    · omega
  isFinite_result := by
    intro e' he'
    obtain hmem | hmem := List.mem_append.1 he'
    · refine hfits.isFinite_result e' ?_
      split_ifs at hmem
      · exact List.mem_of_mem_drop hmem
      · exact hmem
    · obtain rfl := List.mem_singleton.1 hmem
      exact he

/-- What is loaded from a text fits, whatever the text holds. -/
theorem fits_of_ofJson {text : String} {capacity : Nat} {h : History}
    (hload : ofJson text capacity = .ok h) : h.Fits capacity := by
  obtain ⟨entries, hparse, rfl⟩ := map_eq_ok_iff.1 hload
  refine ⟨rfl, ?_, fun e he => Entry.isFinite_of_parse hparse e (List.mem_of_mem_drop he)⟩
  simp only [ofEntries, List.length_drop]
  omega

theorem ofJson_toJson {h : History} (hfinite : ∀ e ∈ h.entries, e.result.isFinite = true)
    (capacity : Nat) :
    ofJson h.toJson capacity = .ok (ofEntries (h.entries.map Entry.reread) capacity) := by
  rw [ofJson, toJson, Entry.parse_toJson hfinite]
  rfl

/-- A history that fits is read back unchanged if each of its results is. -/
theorem ofJson_toJson_of_fits {h : History} {capacity : Nat} (hfits : h.Fits capacity)
    (hread : ∀ e ∈ h.entries, e.reread = e) : ofJson h.toJson capacity = .ok h := by
  have hdrop : h.entries.length - max capacity 1 = 0 := by
    have hle := hfits.length_le
    rw [hfits.capacity_eq] at hle
    omega
  rw [ofJson_toJson hfits.isFinite_result, Entry.map_reread hread, ofEntries, hdrop,
    List.drop_zero, ← hfits.capacity_eq]

end History

end FourFunction
