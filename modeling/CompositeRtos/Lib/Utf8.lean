import Mathlib.Data.List.Basic

/-!
UTF-8 as an automaton over bytes: where a scan stands between two bytes, and what the next
byte may be. A text is well formed when the scan starts and ends between characters, so
well-formed texts can be joined, and a well-formed text can be cut just at the ends of its
well-formed beginnings.
-/
namespace RtosUtf8

/-- `inside more low high`: the next byte is between `low` and `high`, and `more`
    continuation bytes come after it. -/
inductive Scan where
  | boundary
  | inside (more : Nat) (low high : BitVec 8)
  deriving DecidableEq, Repr

/-- The lead bytes of the encoding, without overlong forms, surrogates and code points
    above 0x10ffff. -/
def lead (b : BitVec 8) : Option Scan :=
  if b ≤ 0x7f then some .boundary
  else if 0xc2 ≤ b ∧ b ≤ 0xdf then some (.inside 0 0x80 0xbf)
  else if b = 0xe0 then some (.inside 1 0xa0 0xbf)
  else if 0xe1 ≤ b ∧ b ≤ 0xec then some (.inside 1 0x80 0xbf)
  else if b = 0xed then some (.inside 1 0x80 0x9f)
  else if 0xee ≤ b ∧ b ≤ 0xef then some (.inside 1 0x80 0xbf)
  else if b = 0xf0 then some (.inside 2 0x90 0xbf)
  else if 0xf1 ≤ b ∧ b ≤ 0xf3 then some (.inside 2 0x80 0xbf)
  else if b = 0xf4 then some (.inside 2 0x80 0x8f)
  else none

def feed : Scan → BitVec 8 → Option Scan
  | .boundary, b => lead b
  | .inside more low high, b =>
    if low ≤ b ∧ b ≤ high then
      match more with
      | 0 => some .boundary
      | more + 1 => some (.inside more 0x80 0xbf)
    else none

def scan (from_ : Scan) (text : List (BitVec 8)) : Option Scan := text.foldlM feed from_

def wellFormed (text : List (BitVec 8)) : Bool := decide (scan .boundary text = some .boundary)

theorem well_formed_nil : wellFormed [] = true := rfl

theorem scan_append (from_ : Scan) (a b : List (BitVec 8)) :
    scan from_ (a ++ b) = (scan from_ a).bind fun mid => scan mid b := by
  rw [scan, List.foldlM_append]
  rfl

theorem well_formed_append_iff (first : wellFormed a = true) : wellFormed (a ++ b) = true ↔ wellFormed b = true := by
  simp only [wellFormed, decide_eq_true_eq] at first ⊢
  rw [scan_append, first, Option.bind_some]

end RtosUtf8
