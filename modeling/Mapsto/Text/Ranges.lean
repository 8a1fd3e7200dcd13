/-!
# `Mapsto.Text.Ranges` — sets of characters as sorted ranges

A property of characters is a list of closed ranges of code points, in increasing order and apart from
each other. Membership walks the list and stops at the first range that lies above the character, so
that plain letters are decided by the first few entries of even the longest table.
-/

namespace Mapsto.Text

/-- Whether `n` lies in one of the closed ranges of an increasing list. -/
def inRanges : List (Nat × Nat) → Nat → Bool
  | [], _ => false
  | (lo, hi) :: rest, n => if n < lo then false else decide (n ≤ hi) || inRanges rest n

@[simp] theorem inRanges_nil (n : Nat) : inRanges [] n = false := rfl

theorem inRanges_of_lt {lo hi n : Nat} {rest : List (Nat × Nat)} (h : n < lo) :
    inRanges ((lo, hi) :: rest) n = false := by
  simp [inRanges, h]

/-- A range of the list that holds `n` is enough when no range before it starts above `n`. -/
theorem inRanges_of_mem_head {lo hi n : Nat} {rest : List (Nat × Nat)} (hlo : lo ≤ n) (hhi : n ≤ hi) :
    inRanges ((lo, hi) :: rest) n = true := by
  simp [inRanges, Nat.not_lt.mpr hlo, hhi]

end Mapsto.Text
