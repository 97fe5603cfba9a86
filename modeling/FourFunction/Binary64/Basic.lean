/-!
# Binary64 numbers

A finite binary64 number is a sign and a *rank*, its place among the finite magnitudes in increasing
order.  Every magnitude is a whole number of units of `2 ^ (-1074)`.
-/

namespace FourFunction

abbrev Binary64.binade : Nat := Nat.pow 2 52

/-- A binary64 number.  Zero has rank 0 and a sign. -/
inductive Binary64 where
  | finite (negative : Bool) (rank : Fin (2047 * Binary64.binade))
  | infinite (negative : Bool)
  | nan
deriving DecidableEq, Inhabited

namespace Binary64

/-- The number of finite magnitudes: 2047 runs of `2 ^ 52`. -/
abbrev ranks : Nat := 2047 * binade

/-- The magnitudes around rank `r` are `2 ^ spacing r` units apart. -/
def spacing (r : Nat) : Nat := r / binade - 1

/-- The magnitude of rank `r`, in units of `2 ^ (-1074)`. -/
def units (r : Nat) : Nat := (r - spacing r * binade) * Nat.pow 2 (spacing r)

abbrev unitsPerOne : Nat := Nat.pow 2 1074

/-- The number of a sign and a rank; a rank past the last finite one is an infinity. -/
def ofRank (negative : Bool) (rank : Nat) : Binary64 :=
  if h : rank < ranks then .finite negative ⟨rank, h⟩ else .infinite negative

def zero : Binary64 := .finite false ⟨0, by decide⟩

def isFinite : Binary64 → Bool
  | .finite _ _ => true
  | _ => false

def isZero : Binary64 → Bool
  | .finite _ r => r.val == 0
  | _ => false

def neg : Binary64 → Binary64
  | .finite s r => .finite (!s) r
  | .infinite s => .infinite (!s)
  | .nan => .nan

/-! ### Interchange format -/

/-- The 64 bits of a number: the sign bit, then the rank. -/
def toBits : Binary64 → UInt64
  | .finite s r => UInt64.ofNat ((if s then Nat.pow 2 63 else 0) + r.val)
  | .infinite s => UInt64.ofNat ((if s then Nat.pow 2 63 else 0) + ranks)
  | .nan => UInt64.ofNat (ranks + Nat.pow 2 51)

/-- The number with the given 64 bits; all the NaN patterns are one number. -/
def ofBits (bits : UInt64) : Binary64 :=
  let rank := bits.toNat % Nat.pow 2 63
  if ranks < rank then .nan else ofRank (Nat.pow 2 63 ≤ bits.toNat) rank

/-! ### Small facts -/

theorem isFinite_iff {x : Binary64} : x.isFinite = true ↔ ∃ s r, x = .finite s r := by
  cases x <;> simp [isFinite]

theorem isFinite_ofRank {s : Bool} {r : Nat} : (ofRank s r).isFinite = true ↔ r < ranks := by
  unfold ofRank
  split <;> simp_all [isFinite]

theorem ofRank_val (s : Bool) (r : Fin ranks) : ofRank s r.val = .finite s r := by
  simp [ofRank, r.isLt]

end Binary64

end FourFunction
