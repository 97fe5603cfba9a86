import FourFunction.Proofs.HistoryRoundTrip

/-!
# Histories as bounded logs

Whatever is done with a history, it holds the newest entries of a list with a bound (`BoundedLog`).
Only saving and loading may change results, by the way numbers are read (`History.performAll_log`).
-/

namespace FourFunction

namespace History

inductive Operation where
  | record (entry : Entry)
  | clear
  /-- Where a history cannot be loaded from its own text, it stays. -/
  | reload (capacity : Nat)
deriving DecidableEq

/-- Where a history cannot be loaded from its own text, it stays. -/
def reload (h : History) (capacity : Nat) : History :=
  match ofJson h.toJson capacity with
  | .ok loaded => loaded
  | .error _ => h

def perform (h : History) : Operation → History
  | .record e => h.record e
  | .clear => h.clear
  | .reload capacity => h.reload capacity

def performAll (h : History) (ops : List Operation) : History := ops.foldl perform h

theorem performAll_concat (h : History) (ops : List Operation) (op : Operation) :
    h.performAll (ops ++ [op]) = (h.performAll ops).perform op := by
  rw [performAll, List.foldl_append]
  rfl

end History

/-! ### The log -/

/-- The newest entries, as many as the bound allows. -/
structure BoundedLog where
  entries : List Entry
  bound : Nat

namespace BoundedLog

def trim (log : BoundedLog) : BoundedLog := { log with entries := log.entries.rtake log.bound }

section

variable (reading : Entry → Entry)

/-- What an operation does before any entry is dropped; `reading` is what becomes of an entry that
is saved and loaded. -/
def change (log : BoundedLog) : History.Operation → BoundedLog
  | .record e => { log with entries := log.entries ++ [e] }
  | .clear => { log with entries := [] }
  | .reload capacity => ⟨log.entries.map reading, max capacity 1⟩

def performAll (log : BoundedLog) (ops : List History.Operation) : BoundedLog :=
  ops.foldl (fun log op => (log.change reading op).trim) log

/-- The log after operations that drop no entry. -/
def changeAll (log : BoundedLog) (ops : List History.Operation) : BoundedLog :=
  ops.foldl (change reading) log

theorem performAll_concat (log : BoundedLog) (ops : List History.Operation)
    (op : History.Operation) :
    log.performAll reading (ops ++ [op]) =
      ((log.performAll reading ops).change reading op).trim := by
  rw [performAll, List.foldl_append]
  rfl

theorem changeAll_concat (log : BoundedLog) (ops : List History.Operation)
    (op : History.Operation) :
    log.changeAll reading (ops ++ [op]) = (log.changeAll reading ops).change reading op := by
  rw [changeAll, List.foldl_append]
  rfl

theorem entries_trim_suffix (log : BoundedLog) : log.trim.entries <:+ log.entries :=
  List.drop_suffix _ _

theorem entries_change_suffix {log whole : BoundedLog} (h : log.entries <:+ whole.entries)
    (op : History.Operation) :
    (log.change reading op).entries <:+ (whole.change reading op).entries := by
  cases op with
  | record e =>
    obtain ⟨dropped, hwhole⟩ := h
    exact ⟨dropped, by rw [change, change, ← hwhole, List.append_assoc]⟩
  | clear => exact List.suffix_rfl
  | reload capacity => exact h.map reading

/-- The bound takes old entries away and leaves the rest as it is. -/
theorem entries_performAll_suffix (log : BoundedLog) (ops : List History.Operation) :
    (log.performAll reading ops).entries <:+ (log.changeAll reading ops).entries := by
  induction ops using List.reverseRecOn with
  | nil => exact List.suffix_rfl
  | append_singleton ops op ih =>
    rw [performAll_concat, changeAll_concat]
    exact (entries_trim_suffix _).trans (entries_change_suffix reading ih op)

theorem forall_entries_change {P : Entry → Prop} (hreading : ∀ e, P e → P (reading e))
    {log : BoundedLog} (hlog : ∀ e ∈ log.entries, P e) {op : History.Operation}
    (hop : ∀ e, op = .record e → P e) : ∀ e ∈ (log.change reading op).entries, P e := by
  intro e he
  cases op with
  | record e' =>
    obtain hold | hnew := List.mem_append.1 he
    · exact hlog e hold
    · obtain rfl := List.mem_singleton.1 hnew
      exact hop e rfl
  | clear => cases he
  | reload capacity =>
    obtain ⟨e', he', rfl⟩ := List.mem_map.1 he
    exact hreading e' (hlog e' he')

/-- What holds of all entries that come in, and is not lost by reading, holds along a run. -/
theorem forall_entries_performAll {P : Entry → Prop} (hreading : ∀ e, P e → P (reading e))
    {log : BoundedLog} (hlog : ∀ e ∈ log.entries, P e) {ops : List History.Operation}
    (hops : ∀ e, .record e ∈ ops → P e) : ∀ e ∈ (log.performAll reading ops).entries, P e := by
  induction ops using List.reverseRecOn with
  | nil => exact hlog
  | append_singleton ops op ih =>
    rw [performAll_concat]
    intro e he
    refine forall_entries_change reading hreading
      (ih fun e he => hops e (List.mem_append_left _ he)) ?_ e ((entries_trim_suffix _).subset he)
    rintro e rfl
    exact hops e (List.mem_append_right _ List.mem_cons_self)

/-- Where reading changes none of the entries, it might as well not happen. -/
theorem performAll_eq_performAll_id {log : BoundedLog}
    (hlog : ∀ e ∈ log.entries, reading e = e) {ops : List History.Operation}
    (hops : ∀ e, .record e ∈ ops → reading e = e) :
    log.performAll reading ops = log.performAll id ops := by
  have hkeeps : ∀ e, reading e = e → reading (reading e) = reading e := fun e he => congrArg _ he
  induction ops using List.reverseRecOn with
  | nil => rfl
  | append_singleton ops op ih =>
    have hfront : ∀ e, .record e ∈ ops → reading e = e :=
      fun e he => hops e (List.mem_append_left _ he)
    have hentries := forall_entries_performAll reading hkeeps hlog hfront
    rw [performAll_concat, performAll_concat, ← ih hfront]
    cases op with
    | record e | clear => rfl
    | reload capacity =>
      rw [change, change, List.map_id, List.map_congr_left hentries, List.map_id']

end

end BoundedLog

/-! ### Histories -/

namespace History

def log (h : History) : BoundedLog := ⟨h.entries, h.capacity⟩

/-- A history that keeps to its capacity. -/
structure Bounded (h : History) : Prop where
  capacity_pos : 1 ≤ h.capacity
  length_le : h.length ≤ h.capacity

theorem bounded_ofEntries (entries : List Entry) (capacity : Nat) :
    (ofEntries entries capacity).Bounded where
  capacity_pos := le_max_right _ _
  length_le := by
    simp only [length, ofEntries, List.length_drop]
    omega

theorem Bounded.eq_ofEntries {h : History} (hbounded : h.Bounded) :
    h = ofEntries h.entries h.capacity := by
  obtain ⟨hpos, hlength⟩ := hbounded
  have hdrop : h.entries.length - max h.capacity 1 = 0 := by
    rw [length] at hlength
    omega
  rw [ofEntries, hdrop, List.drop_zero, max_eq_left hpos]

theorem log_ofEntries (entries : List Entry) (capacity : Nat) :
    (ofEntries entries capacity).log = BoundedLog.trim ⟨entries, max capacity 1⟩ := rfl

/-- A new entry is the newest one of a list that the capacity cuts down. -/
theorem Bounded.record_eq {h : History} (hbounded : h.Bounded) (e : Entry) :
    h.record e = ofEntries (h.entries ++ [e]) h.capacity := by
  rw [← ofEntries_record, ← hbounded.eq_ofEntries]

theorem exists_reload_eq (h : History) (capacity : Nat) :
    h.reload capacity = h ∨ ∃ entries, h.reload capacity = ofEntries entries capacity := by
  unfold reload
  cases hload : ofJson h.toJson capacity with
  | error fault => exact .inl rfl
  | ok loaded =>
    obtain ⟨entries, -, hentries⟩ := map_eq_ok_iff.1 hload
    exact .inr ⟨entries, hentries.symm⟩

theorem reload_of_finite {h : History} (hfinite : ∀ e ∈ h.entries, e.result.isFinite = true)
    (capacity : Nat) : h.reload capacity = ofEntries (h.entries.map Entry.reread) capacity := by
  rw [reload, ofJson_toJson hfinite]

/-- No operation leads past the capacity, whatever the results are. -/
theorem Bounded.perform {h : History} (hbounded : h.Bounded) (op : Operation) :
    (h.perform op).Bounded := by
  cases op with
  | record e =>
    rw [History.perform, hbounded.record_eq]
    exact bounded_ofEntries _ _
  | clear => exact ⟨hbounded.capacity_pos, Nat.zero_le _⟩
  | reload capacity =>
    obtain hsame | ⟨entries, hentries⟩ := h.exists_reload_eq capacity
    · rw [History.perform, hsame]
      exact hbounded
    · rw [History.perform, hentries]
      exact bounded_ofEntries _ _

theorem Bounded.log_perform {h : History} (hbounded : h.Bounded)
    (hfinite : ∀ e ∈ h.entries, e.result.isFinite = true) (op : Operation) :
    (h.perform op).log = (h.log.change Entry.reread op).trim := by
  cases op with
  | record e =>
    rw [History.perform, hbounded.record_eq, log_ofEntries, max_eq_left hbounded.capacity_pos]
    rfl
  | clear =>
    rw [BoundedLog.trim, BoundedLog.change, List.rtake_nil]
    rfl
  | reload capacity =>
    rw [History.perform, reload_of_finite hfinite]
    rfl

theorem Bounded.performAll {h : History} (hbounded : h.Bounded) (ops : List Operation) :
    (h.performAll ops).Bounded := by
  induction ops using List.reverseRecOn with
  | nil => exact hbounded
  | append_singleton ops op ih =>
    rw [performAll_concat]
    exact ih.perform op

/-- As long as the results are finite, a run does to a history what it does to the log. -/
theorem Bounded.log_performAll {h : History} (hbounded : h.Bounded)
    (hfinite : ∀ e ∈ h.entries, e.result.isFinite = true) {ops : List Operation}
    (hops : ∀ e, .record e ∈ ops → e.result.isFinite = true) :
    (h.performAll ops).log = h.log.performAll Entry.reread ops ∧
      ∀ e ∈ (h.performAll ops).entries, e.result.isFinite = true := by
  have hreread : ∀ e : Entry, e.result.isFinite = true → e.reread.result.isFinite = true :=
    fun e => Json.isFinite_reread
  have hentries : ∀ {ops : List Operation}, (∀ e, .record e ∈ ops → e.result.isFinite = true) →
      ∀ e ∈ (h.log.performAll Entry.reread ops).entries, e.result.isFinite = true :=
    BoundedLog.forall_entries_performAll Entry.reread hreread hfinite
  suffices hlog : (h.performAll ops).log = h.log.performAll Entry.reread ops by
    exact ⟨hlog, fun e he => hentries hops e (hlog ▸ he)⟩
  induction ops using List.reverseRecOn with
  | nil => rfl
  | append_singleton ops op ih =>
    have hfront : ∀ e, .record e ∈ ops → e.result.isFinite = true :=
      fun e he => hops e (List.mem_append_left _ he)
    have hlog := ih hfront
    have hrun : ∀ e ∈ (h.performAll ops).entries, e.result.isFinite = true :=
      fun e he => hentries hfront e (hlog ▸ he)
    rw [performAll_concat, BoundedLog.performAll_concat, ← hlog]
    exact (hbounded.performAll ops).log_perform hrun op

theorem eq_ofEntries_of_ofJson {text : String} {saved : List Entry}
    (hparse : Json.parse (Json.readList Entry.read) text = .ok saved) {capacity : Nat} {h : History}
    (hload : ofJson text capacity = .ok h) : h = ofEntries saved capacity := by
  rw [ofJson, hparse, map_ok] at hload
  exact (Except.ok.inj hload).symm

/-- A run keeps a history within its capacity.  As long as the results are finite, it holds what the
log holds and can be loaded again; no result changes unless reading changes it. -/
theorem performAll_log {start : History} {capacity : Nat} {saved : List Entry}
    (hstart : (saved = [] ∧ start = empty capacity) ∨
      ∃ text, Json.parse (Json.readList Entry.read) text = .ok saved ∧
        ofJson text capacity = .ok start) (ops : List Operation) :
    let h := start.performAll ops
    let initial := BoundedLog.trim ⟨saved, max capacity 1⟩
    let log := initial.performAll Entry.reread ops
    1 ≤ h.capacity ∧ h.length ≤ h.capacity ∧
    ((∀ e, .record e ∈ ops → e.result.isFinite = true) →
      h.entries = log.entries ∧ h.capacity = log.bound ∧
      h.entries <:+ (initial.changeAll Entry.reread ops).entries ∧
      h.lines = "\n".intercalate
        (log.entries.map fun e => e.expression ++ " = " ++ e.result.resultText) ∧
      (∀ capacity', ofJson h.toJson capacity' = .ok (h.reload capacity')) ∧
      ((∀ e ∈ saved, e.reread = e) → (∀ e, .record e ∈ ops → e.reread = e) →
        h.entries = (initial.performAll id ops).entries)) ∧
    ∀ capacity' fault, ofJson h.toJson capacity' = .error fault → h.reload capacity' = h := by
  intro h initial log
  have hsaved : start = ofEntries saved capacity ∧ ∀ e ∈ saved, e.result.isFinite = true := by
    obtain ⟨rfl, rfl⟩ | ⟨text, hparse, hload⟩ := hstart
    · exact ⟨(ofEntries_nil capacity).symm, by simp⟩
    · exact ⟨eq_ofEntries_of_ofJson hparse hload, Entry.isFinite_of_parse hparse⟩
  obtain ⟨rfl, hfinite⟩ := hsaved
  have hbounded := bounded_ofEntries saved capacity
  obtain ⟨hpos, hlength⟩ := hbounded.performAll ops
  refine ⟨hpos, hlength, fun hops => ?_, fun capacity' fault hfault => ?_⟩
  · obtain ⟨hlog, hrun⟩ := hbounded.log_performAll
      (fun e he => hfinite e (List.mem_of_mem_drop he)) hops
    have hentries : h.entries = log.entries := congrArg BoundedLog.entries hlog
    refine ⟨hentries, congrArg BoundedLog.bound hlog, ?_, ?_, fun capacity' => ?_,
      fun hread hexact => ?_⟩
    · rw [hentries]
      exact initial.entries_performAll_suffix Entry.reread ops
    · rw [lines, hentries]
      rfl
    · rw [reload_of_finite hrun, ofJson_toJson hrun]
    · have hinitial : ∀ e ∈ initial.entries, e.reread = e :=
        fun e he => hread e (List.mem_of_mem_drop he)
      exact hentries.trans (congrArg BoundedLog.entries
        (BoundedLog.performAll_eq_performAll_id Entry.reread hinitial hexact))
  · rw [reload, hfault]

def savedEntries : List Entry :=
  [⟨"1", .ofBits 0x3ff0000000000000, 7⟩, ⟨"2", .ofBits 0x4000000000000000, 8⟩,
    ⟨"3", .ofBits 0x4008000000000000, 9⟩]

/-- A capacity that grows, shrinks to the least one there is, and grows again. -/
def reloadingRun : List Operation :=
  [.reload 3, .record ⟨"2*2", .ofBits 0x4010000000000000, 0⟩,
    .record ⟨"0*1", .ofBits 0x8000000000000000, 0⟩, .reload 0, .reload 2,
    .record ⟨"1/0.5", .ofBits 0x4000000000000000, 0⟩]

/-- The product `0.1*1.1`, which has a digit more than is read. -/
def longProduct : Entry := ⟨"0.1*1.1", .ofBits 0x3fbc28f5c28f5c2a, 0⟩

/-- The newest of the entries outlives the capacity of one.  A long result loses its last digit, and
an infinity stays where it is. -/
theorem performAll_log_reloading :
    let h := (ofEntries savedEntries 2).performAll reloadingRun
    let shortened := (empty 5).performAll [.record longProduct, .reload 5]
    let stuck := (empty 0).performAll [.record ⟨"", .infinite false, 0⟩]
    h.entries = [⟨"0*1", .ofBits 0x8000000000000000, 0⟩,
      ⟨"1/0.5", .ofBits 0x4000000000000000, 0⟩] ∧
    h.capacity = 2 ∧
    shortened.entries = [⟨"0.1*1.1", .ofBits 0x3fbc28f5c28f5c29, 0⟩] ∧
    stuck.reload 5 = stuck := by
  intro h shortened stuck
  have hsaved : ∀ e ∈ savedEntries, e.result.isFinite = true := by decide
  have hread : ∀ e ∈ savedEntries, e.reread = e := by decide +kernel
  have hparse := Entry.parse_toJson hsaved
  rw [Entry.map_reread hread] at hparse
  have hload : ofJson (Json.array (savedEntries.map Entry.toJson)) 2 =
      .ok (ofEntries savedEntries 2) := by
    rw [ofJson, hparse, map_ok]
  have hrecorded : ∀ e, .record e ∈ reloadingRun → e.result.isFinite = true ∧ e.reread = e := by
    intro e he
    simp only [reloadingRun, List.mem_cons, List.not_mem_nil, or_false, reduceCtorEq, false_or,
      Operation.record.injEq] at he
    obtain rfl | rfl | rfl := he <;> decide +kernel
  obtain ⟨-, -, hrun, -⟩ := performAll_log (.inr ⟨_, hparse, hload⟩) reloadingRun
  obtain ⟨-, hcapacity, -, -, -, hexact⟩ := hrun fun e he => (hrecorded e he).1
  have hentries := hexact hread fun e he => (hrecorded e he).2
  have hlong : ∀ e, .record e ∈ [.record longProduct, Operation.reload 5] →
      e.result.isFinite = true := by
    intro e he
    simp only [List.mem_cons, List.not_mem_nil, or_false, reduceCtorEq,
      Operation.record.injEq] at he
    obtain rfl := he
    rfl
  have hempty : ∀ capacity, ([] : List Entry) = [] ∧ empty capacity = empty capacity :=
    fun _ => ⟨rfl, rfl⟩
  obtain ⟨-, -, hrun', -⟩ := performAll_log (.inl (hempty 5)) [.record longProduct, .reload 5]
  obtain ⟨-, -, -, hstuck⟩ := performAll_log (.inl (hempty 0)) [.record ⟨"", .infinite false, 0⟩]
  exact ⟨hentries.trans (by decide +kernel), hcapacity.trans (by decide +kernel),
    (hrun' hlong).1.trans (by decide +kernel), hstuck 5 .mismatch (by decide +kernel)⟩

end History

end FourFunction
