import Mapsto.Decimal.Layout
import Mathlib.Algebra.Order.Archimedean.Basic
import Mathlib.Algebra.Order.Field.Power
import Mathlib.Data.Rat.Floor
import Mathlib.Order.Interval.Set.OrdConnected
import Mathlib.Tactic.Linarith
import Mathlib.Tactic.Positivity
import Mathlib.Tactic.Ring

/-!
# `Mapsto.Proofs.Decimal.Shortest` — which digits a double is written with

The digits of a double are those of a decimal `d · 10^k` that is read back as it: one in the interval of the
reals that round to the double, which ends half way to the next one (`ofFields_next`). `IsShortest` says which
one, in rationals: `k` is greatest among all decimals in the interval, and of the multiples of `10^k` in it
`d · 10^k` is nearest. There is one such decimal for every positive finite double, and the search finds it
(`ofFields_shortest_eq_iff`). No other decimal in the interval has fewer digits (`IsShortest.lt_pow`), and these
are seventeen at most (`ofFields_shortest_lt`).

**One power of ten.** The search looks at the two multiples next to the double. If neither is in the interval, none
is, since the interval has no gaps (`Proper.onGrid?_eq_none_iff`).

**The search stops.** The interval is wider than a power of ten that is below the double by sixteen places at
most, so a decimal of seventeen digits lies in it. The search begins above all powers of which a multiple is in
the interval, and it is long enough to come to this one (`Proper`): both are facts about the logarithm by which
it begins, of which there are few (`bounds_of_lt`).
-/

namespace Mapsto.Decimal.Rounding

/-! ## Decimals in the interval -/

/-- The double. -/
def double (r : Rounding) : ℚ := r.value / one

/-- The reals that round to the double, as far as they are rational. -/
def interval (r : Rounding) : Set ℚ :=
  if r.closed then Set.Icc (r.low / one) (r.high / one) else Set.Ioo (r.low / one) (r.high / one)

/-- Of the multiples of `10^k` in the interval, `d · 10^k` is nearest to the double. Where another is as near,
`tie` says which of them it is. -/
structure IsNearest (r : Rounding) (tie : Tie) (d : Nat) (k : Int) : Prop where
  mem : (d : ℚ) * 10 ^ k ∈ r.interval
  nearest : ∀ {d' : Nat}, (d' : ℚ) * 10 ^ k ∈ r.interval →
    |(d : ℚ) * 10 ^ k - r.double| ≤ |(d' : ℚ) * 10 ^ k - r.double|
  tied : ∀ {d' : Nat}, d' ≠ d → (d' : ℚ) * 10 ^ k ∈ r.interval →
    |(d : ℚ) * 10 ^ k - r.double| = |(d' : ℚ) * 10 ^ k - r.double| →
      match tie with
      | .toEven => d % 2 = 0
      | .up => d' < d

/-- Of all decimals in the interval, `d · 10^k` is on the coarsest grid, and nearest to the double there. -/
structure IsShortest (r : Rounding) (tie : Tie) (d : Nat) (k : Int) : Prop extends r.IsNearest tie d k where
  coarsest : ∀ {d' : Nat} {k' : Int}, (d' : ℚ) * 10 ^ k' ∈ r.interval → k' ≤ k

variable {r : Rounding} {tie : Tie} {d : Nat} {k : Int}

theorem one_pos : 0 < one := by decide +kernel

theorem cast_one_pos : (0 : ℚ) < one := Nat.cast_pos.mpr one_pos

theorem scale_pos (k : Int) : 0 < scale k := Nat.pow_pos (by decide)

theorem step_pos (k : Int) : 0 < step k := Nat.mul_pos one_pos (Nat.pow_pos (by decide))

/-- `step` and `scale` are a power of ten, as a fraction. -/
theorem step_eq (k : Int) : (step k : ℚ) = 10 ^ k * one * scale k := by
  have hpow : (10 : ℚ) ^ k.toNat = 10 ^ k * 10 ^ (-k).toNat := by
    rw [← zpow_natCast, ← zpow_natCast, ← zpow_add₀ (by decide)]
    congr 1
    omega
  simp only [step, scale, Nat.pow_eq, Nat.cast_mul, Nat.cast_pow, Nat.cast_ofNat, hpow]
  ring

theorem cast_mul_step (d : Nat) (k : Int) : ((d * step k : Nat) : ℚ) = (d : ℚ) * 10 ^ k * one * scale k := by
  rw [Nat.cast_mul, step_eq]
  ring

theorem div_le_iff_scale (n d : Nat) (k : Int) :
    (n : ℚ) / one ≤ d * 10 ^ k ↔ n * scale k ≤ d * step k := by
  rw [div_le_iff₀ cast_one_pos, ← Nat.cast_le (α := ℚ), cast_mul_step, Nat.cast_mul,
    mul_le_mul_iff_left₀ (Nat.cast_pos.mpr (scale_pos k))]

theorem div_lt_iff_scale (n d : Nat) (k : Int) :
    (n : ℚ) / one < d * 10 ^ k ↔ n * scale k < d * step k := by
  rw [div_lt_iff₀ cast_one_pos, ← Nat.cast_lt (α := ℚ), cast_mul_step, Nat.cast_mul,
    mul_lt_mul_iff_left₀ (Nat.cast_pos.mpr (scale_pos k))]

theorem div_lt_zpow_iff_scale (n : Nat) (k : Int) : (n : ℚ) / one < 10 ^ k ↔ n * scale k < step k := by
  have hone := div_lt_iff_scale n 1 k
  rwa [Nat.cast_one, one_mul, Nat.one_mul] at hone

/-- The comparisons between natural numbers say whether a decimal is in the interval. -/
theorem holds_iff : r.holds d k = true ↔ (d : ℚ) * 10 ^ k ∈ r.interval := by
  have hle : d * step k ≤ r.high * scale k ↔ (d : ℚ) * 10 ^ k ≤ r.high / one := by
    rw [← not_lt, ← not_lt, div_lt_iff_scale]
  have hlt : d * step k < r.high * scale k ↔ (d : ℚ) * 10 ^ k < r.high / one := by
    rw [← not_le, ← not_le, div_le_iff_scale]
  unfold holds interval
  split
  · simp only [Bool.and_eq_true, decide_eq_true_eq, Set.mem_Icc, div_le_iff_scale, hle]
  · simp only [Bool.and_eq_true, decide_eq_true_eq, Set.mem_Ioo, div_lt_iff_scale, hlt]

theorem interval_ordConnected (r : Rounding) : r.interval.OrdConnected := by
  unfold interval
  split
  · exact Set.ordConnected_Icc
  · exact Set.ordConnected_Ioo

theorem mem_interval_of_lt {x : ℚ} (hlow : r.low / one < x) (hhigh : x < r.high / one) : x ∈ r.interval := by
  unfold interval
  split
  · exact ⟨hlow.le, hhigh.le⟩
  · exact ⟨hlow, hhigh⟩

theorem bounds_of_mem {x : ℚ} (h : x ∈ r.interval) : r.low / one ≤ x ∧ x ≤ r.high / one := by
  unfold interval at h
  split at h
  · exact h
  · exact ⟨h.1.le, h.2.le⟩

theorem mul_zpow_le {d d' : Nat} (h : d ≤ d') (k : Int) : (d : ℚ) * 10 ^ k ≤ (d' : ℚ) * 10 ^ k :=
  mul_le_mul_of_nonneg_right (Nat.cast_le.mpr h) (by positivity)

theorem mul_zpow_lt {d d' : Nat} (h : d < d') (k : Int) : (d : ℚ) * 10 ^ k < (d' : ℚ) * 10 ^ k :=
  mul_lt_mul_of_pos_right (Nat.cast_lt.mpr h) (by positivity)

/-- A power of ten has one digit. -/
theorem cast_pow_mul_zpow (n : Nat) (k : Int) : ((10 ^ n : Nat) : ℚ) * 10 ^ k = (1 : Nat) * 10 ^ (n + k : Int) := by
  rw [Nat.cast_one, one_mul, zpow_add₀ (by norm_num), zpow_natCast, Nat.cast_pow, Nat.cast_ofNat]

/-! ## One power of ten -/

/-- What the search relies on. -/
structure Proper (r : Rounding) : Prop where
  low_pos : 0 < r.low
  low_lt : r.low < r.value
  lt_high : r.value < r.high
  /-- The interval is as wide as a unit in the seventeenth place. -/
  wide : r.value < 10 ^ 16 * (r.high - r.low)
  /-- The search begins above the interval … -/
  above : r.high * scale (r.above + 1) < step (r.above + 1)
  /-- … but not far above the double. -/
  below : step (r.above - 2) ≤ r.value * scale (r.above - 2)

/-- The multiple of `10^k` that is next to the double, at or below it. -/
def beneath (r : Rounding) (k : Int) : Nat := r.value * scale k / step k

theorem beneath_mul_step_le (r : Rounding) (k : Int) : r.beneath k * step k ≤ r.value * scale k := by
  rw [beneath]
  exact Nat.div_mul_le_self (r.value * scale k) (step k)

theorem onGrid?_eq (r : Rounding) (tie : Tie) (k : Int) :
    r.onGrid? tie k =
      match r.holds (r.beneath k) k, r.holds (r.beneath k + 1) k with
      | true, true => some (r.nearer tie (r.beneath k) k)
      | true, false => some (r.beneath k)
      | false, true => some (r.beneath k + 1)
      | false, false => none := rfl

theorem beneath_le (r : Rounding) (k : Int) : (r.beneath k : ℚ) * 10 ^ k ≤ r.double := by
  rw [double, ← not_lt, div_lt_iff_scale, not_lt]
  exact r.beneath_mul_step_le k

theorem lt_beneath (r : Rounding) (k : Int) : r.double < ((r.beneath k + 1 : Nat) : ℚ) * 10 ^ k := by
  rw [double, div_lt_iff_scale, Nat.mul_comm _ (step k), beneath]
  exact Nat.lt_mul_div_succ (r.value * scale k) (step_pos k)

theorem abs_of_le_beneath (h : d ≤ r.beneath k) : |(d : ℚ) * 10 ^ k - r.double| = r.double - d * 10 ^ k := by
  rw [abs_sub_comm]
  exact abs_of_nonneg (sub_nonneg.mpr ((mul_zpow_le h k).trans (r.beneath_le k)))

theorem abs_of_beneath_lt (h : r.beneath k < d) : |(d : ℚ) * 10 ^ k - r.double| = d * 10 ^ k - r.double :=
  abs_of_nonneg (sub_nonneg.mpr ((r.lt_beneath k).le.trans (mul_zpow_le h k)))

/-- Twice the distance to the multiple beneath, to be held against the distance between two multiples. -/
theorem cast_twice (r : Rounding) (k : Int) :
    ((2 * (r.value * scale k - r.beneath k * step k) : Nat) : ℚ) =
      2 * (r.double - r.beneath k * 10 ^ k) * (one * scale k) := by
  have hdouble : r.double * one = r.value := div_mul_cancel₀ _ cast_one_pos.ne'
  rw [Nat.cast_mul, Nat.cast_sub (r.beneath_mul_step_le k), cast_mul_step, Nat.cast_mul, ← hdouble, Nat.cast_ofNat]
  ring

theorem cast_one_mul_scale_pos (k : Int) : (0 : ℚ) < one * scale k :=
  mul_pos cast_one_pos (Nat.cast_pos.mpr (scale_pos k))

theorem twice_lt_step_iff (r : Rounding) (k : Int) :
    2 * (r.value * scale k - r.beneath k * step k) < step k ↔
      r.double - r.beneath k * 10 ^ k < (r.beneath k + 1 : Nat) * 10 ^ k - r.double := by
  rw [← Nat.cast_lt (α := ℚ), cast_twice, step_eq, mul_assoc (10 ^ k),
    mul_lt_mul_iff_left₀ (cast_one_mul_scale_pos k), Nat.cast_succ, add_one_mul]
  constructor <;> intro h <;> linarith

theorem step_lt_twice_iff (r : Rounding) (k : Int) :
    step k < 2 * (r.value * scale k - r.beneath k * step k) ↔
      (r.beneath k + 1 : Nat) * 10 ^ k - r.double < r.double - r.beneath k * 10 ^ k := by
  rw [← Nat.cast_lt (α := ℚ), cast_twice, step_eq, mul_assoc (10 ^ k),
    mul_lt_mul_iff_left₀ (cast_one_mul_scale_pos k), Nat.cast_succ, add_one_mul]
  constructor <;> intro h <;> linarith

/-- Where two multiples are as near as each other, a multiple between them would be nearer. -/
theorem IsNearest.le_succ {d' : Nat} (h : r.IsNearest tie d k) (h' : r.IsNearest tie d' k) : d' ≤ d + 1 := by
  refine Nat.not_lt.mp fun hfar => ?_
  have hlow := mul_zpow_lt (Nat.lt_succ_self d) k
  have hhigh := mul_zpow_lt hfar k
  have hmem := r.interval_ordConnected.out h.mem h'.mem ⟨hlow.le, hhigh.le⟩
  have hnear := h.nearest hmem
  have hnear' := h'.nearest hmem
  rcases le_total r.double ((d + 1 : Nat) * 10 ^ k) with hle | hle
  · rw [abs_of_nonneg (sub_nonneg.mpr hle), abs_of_nonneg (sub_nonneg.mpr (hle.trans hhigh.le))] at hnear'
    linarith
  · rw [abs_of_nonpos (sub_nonpos.mpr hle), abs_of_nonpos (sub_nonpos.mpr (hlow.le.trans hle))] at hnear
    linarith

theorem IsNearest.unique {d' : Nat} (h : r.IsNearest tie d k) (h' : r.IsNearest tie d' k) : d = d' := by
  refine Classical.byContradiction fun hne => ?_
  have heq := le_antisymm (h.nearest h'.mem) (h'.nearest h.mem)
  have htied := h.tied (Ne.symm hne) h'.mem heq
  have htied' := h'.tied hne h.mem heq.symm
  have hle := h.le_succ h'
  have hle' := h'.le_succ h
  cases tie <;> dsimp only at htied htied' <;> omega

section Proper

variable (h : r.Proper)

include h

theorem Proper.double_mem : r.double ∈ r.interval := by
  have hlow : (r.low : ℚ) / one < r.double := div_lt_div_of_pos_right (Nat.cast_lt.mpr h.low_lt) cast_one_pos
  have hhigh : r.double < (r.high : ℚ) / one := div_lt_div_of_pos_right (Nat.cast_lt.mpr h.lt_high) cast_one_pos
  exact mem_interval_of_lt hlow hhigh

theorem Proper.beneath_mem (hmem : (d : ℚ) * 10 ^ k ∈ r.interval) (hd : d ≤ r.beneath k) :
    (r.beneath k : ℚ) * 10 ^ k ∈ r.interval :=
  r.interval_ordConnected.out hmem h.double_mem ⟨mul_zpow_le hd k, r.beneath_le k⟩

theorem Proper.succ_beneath_mem (hmem : (d : ℚ) * 10 ^ k ∈ r.interval) (hd : r.beneath k < d) :
    ((r.beneath k + 1 : Nat) : ℚ) * 10 ^ k ∈ r.interval :=
  r.interval_ordConnected.out h.double_mem hmem ⟨(r.lt_beneath k).le, mul_zpow_le hd k⟩

/-- If neither of the multiples next to the double is in the interval, none is. -/
theorem Proper.onGrid?_eq_none_iff : r.onGrid? tie k = none ↔ ∀ d : Nat, (d : ℚ) * 10 ^ k ∉ r.interval := by
  have hnone : r.onGrid? tie k = none ↔
      r.holds (r.beneath k) k = false ∧ r.holds (r.beneath k + 1) k = false := by
    rw [onGrid?_eq]
    cases r.holds (r.beneath k) k <;> cases r.holds (r.beneath k + 1) k <;> simp
  simp only [hnone, Bool.eq_false_iff, ne_eq, holds_iff]
  constructor
  · rintro ⟨hbeneath, habove⟩ d hd
    by_cases hle : d ≤ r.beneath k
    · exact hbeneath (h.beneath_mem hd hle)
    · exact habove (h.succ_beneath_mem hd (Nat.not_le.mp hle))
  · exact fun hall => ⟨hall _, hall _⟩

/-- The multiple beneath the double is nearest unless the one above it is in the interval and nearer. -/
theorem Proper.isNearest_beneath (hmem : (r.beneath k : ℚ) * 10 ^ k ∈ r.interval)
    (hle : ((r.beneath k + 1 : Nat) : ℚ) * 10 ^ k ∈ r.interval →
      r.double - r.beneath k * 10 ^ k ≤ (r.beneath k + 1 : Nat) * 10 ^ k - r.double)
    (htie : ((r.beneath k + 1 : Nat) : ℚ) * 10 ^ k ∈ r.interval →
      r.double - r.beneath k * 10 ^ k = (r.beneath k + 1 : Nat) * 10 ^ k - r.double →
        tie = .toEven ∧ r.beneath k % 2 = 0) : r.IsNearest tie (r.beneath k) k where
  mem := hmem
  nearest := by
    intro d hd
    rw [abs_of_le_beneath le_rfl]
    by_cases hlow : d ≤ r.beneath k
    · rw [abs_of_le_beneath hlow]
      linarith [mul_zpow_le hlow k]
    · have hhigh : r.beneath k < d := Nat.not_le.mp hlow
      rw [abs_of_beneath_lt hhigh]
      linarith [mul_zpow_le (Nat.succ_le_of_lt hhigh) k, hle (h.succ_beneath_mem hd hhigh)]
  tied := by
    intro d hne hd heq
    rw [abs_of_le_beneath le_rfl] at heq
    rcases Nat.lt_or_gt_of_ne hne with hlow | hhigh
    · rw [abs_of_le_beneath hlow.le] at heq
      linarith [mul_zpow_lt hlow k]
    · rw [abs_of_beneath_lt hhigh] at heq
      have hnext := h.succ_beneath_mem hd hhigh
      have hgap : (r.beneath k + 1 : Nat) * 10 ^ k - r.double ≤ r.double - r.beneath k * 10 ^ k := by
        linarith [mul_zpow_le (Nat.succ_le_of_lt hhigh) k]
      obtain ⟨rfl, heven⟩ := htie hnext (le_antisymm (hle hnext) hgap)
      exact heven

/-- The multiple above the double is nearest unless the one beneath it is in the interval and nearer. -/
theorem Proper.isNearest_succ_beneath (hmem : ((r.beneath k + 1 : Nat) : ℚ) * 10 ^ k ∈ r.interval)
    (hle : (r.beneath k : ℚ) * 10 ^ k ∈ r.interval →
      (r.beneath k + 1 : Nat) * 10 ^ k - r.double ≤ r.double - r.beneath k * 10 ^ k)
    (htie : (r.beneath k : ℚ) * 10 ^ k ∈ r.interval →
      (r.beneath k + 1 : Nat) * 10 ^ k - r.double = r.double - r.beneath k * 10 ^ k →
        tie = .toEven → (r.beneath k + 1) % 2 = 0) : r.IsNearest tie (r.beneath k + 1) k where
  mem := hmem
  nearest := by
    intro d hd
    rw [abs_of_beneath_lt (Nat.lt_succ_self _)]
    by_cases hlow : d ≤ r.beneath k
    · rw [abs_of_le_beneath hlow]
      linarith [mul_zpow_le hlow k, hle (h.beneath_mem hd hlow)]
    · have hhigh : r.beneath k < d := Nat.not_le.mp hlow
      rw [abs_of_beneath_lt hhigh]
      linarith [mul_zpow_le (Nat.succ_le_of_lt hhigh) k]
  tied := by
    intro d hne hd heq
    rw [abs_of_beneath_lt (Nat.lt_succ_self _)] at heq
    by_cases hlow : d ≤ r.beneath k
    · rw [abs_of_le_beneath hlow] at heq
      have hprevious := h.beneath_mem hd hlow
      have hgap : r.double - r.beneath k * 10 ^ k ≤ (r.beneath k + 1 : Nat) * 10 ^ k - r.double := by
        linarith [mul_zpow_le hlow k]
      cases tie with
      | toEven => exact htie hprevious (le_antisymm (hle hprevious) hgap) rfl
      | up => exact Nat.lt_succ_of_le hlow
    · have hhigh : r.beneath k + 1 < d := by omega
      rw [abs_of_beneath_lt (Nat.lt_of_succ_lt hhigh)] at heq
      linarith [mul_zpow_lt hhigh k]

theorem Proper.isNearest_nearer (hlow : (r.beneath k : ℚ) * 10 ^ k ∈ r.interval)
    (hhigh : ((r.beneath k + 1 : Nat) : ℚ) * 10 ^ k ∈ r.interval) :
    r.IsNearest tie (r.nearer tie (r.beneath k) k) k := by
  unfold nearer
  dsimp only
  split
  · rename_i hnear
    have hnear := (twice_lt_step_iff r k).mp hnear
    exact h.isNearest_beneath hlow (fun _ => hnear.le) (fun _ heq => absurd heq hnear.ne)
  split
  · rename_i hnear
    have hnear := (step_lt_twice_iff r k).mp hnear
    exact h.isNearest_succ_beneath hhigh (fun _ => hnear.le) (fun _ heq => absurd heq hnear.ne)
  rename_i hfar hnear
  have hle := not_lt.mp (mt (step_lt_twice_iff r k).mpr hnear)
  have hge := not_lt.mp (mt (twice_lt_step_iff r k).mpr hfar)
  cases tie with
  | up => exact h.isNearest_succ_beneath hhigh (fun _ => hge) nofun
  | toEven =>
      dsimp only
      split
      · rename_i heven
        exact h.isNearest_beneath hlow (fun _ => hle) (fun _ _ => ⟨rfl, heven⟩)
      · rename_i hodd
        exact h.isNearest_succ_beneath hhigh (fun _ => hge) (fun _ _ _ => by omega)

/-- **One power of ten.** What is found is the nearest multiple in the interval. -/
theorem Proper.isNearest_of_onGrid? (hgrid : r.onGrid? tie k = some d) : r.IsNearest tie d k := by
  rw [onGrid?_eq] at hgrid
  split at hgrid <;> rename_i hlow hhigh
  · obtain rfl := Option.some.inj hgrid
    exact h.isNearest_nearer (holds_iff.mp hlow) (holds_iff.mp hhigh)
  · obtain rfl := Option.some.inj hgrid
    have hnot := mt holds_iff.mpr (Bool.eq_false_iff.mp hhigh)
    exact h.isNearest_beneath (holds_iff.mp hlow) (absurd · hnot) (absurd · hnot)
  · obtain rfl := Option.some.inj hgrid
    have hnot := mt holds_iff.mpr (Bool.eq_false_iff.mp hlow)
    exact h.isNearest_succ_beneath (holds_iff.mp hhigh) (absurd · hnot) (absurd · hnot)
  · cases hgrid

end Proper

/-! ## The search -/

/-- **Run lemma.** If the search comes to a power of ten of which a multiple is in the interval, it ends at the
greatest such power that it comes to. -/
theorem search_spec (tie : Tie) {fuel : Nat} {k k' : Int} {d' : Nat} (h : r.Proper)
    (hmem : (d' : ℚ) * 10 ^ k' ∈ r.interval) (hle : k' ≤ k) (hfuel : k < k' + fuel) :
    r.IsNearest tie (r.search tie fuel k).1 (r.search tie fuel k).2 ∧
      ∀ i, (r.search tie fuel k).2 < i → i ≤ k → ∀ d : Nat, (d : ℚ) * 10 ^ i ∉ r.interval := by
  induction fuel generalizing k with
  | zero => omega
  | succ fuel ih =>
      rw [search]
      cases hgrid : r.onGrid? tie k with
      | some d => exact ⟨h.isNearest_of_onGrid? hgrid, fun i hi hi' => absurd hi' (Int.not_le.mpr hi)⟩
      | none =>
          have hnone := h.onGrid?_eq_none_iff.mp hgrid
          have hne : k' ≠ k := by
            rintro rfl
            exact hnone d' hmem
          obtain ⟨hnearest, hcoarsest⟩ := ih (k := k - 1) (by omega) (by omega)
          refine ⟨hnearest, fun i hi hi' => ?_⟩
          by_cases hk : i = k
          · exact hk ▸ hnone
          · exact hcoarsest i hi (by omega)

/-- The first multiple above the lower end is below the upper one, if the interval is wide enough. -/
theorem exists_mul_zpow_mem (hwide : (10 : ℚ) ^ k < r.high / one - r.low / one) :
    ∃ d : Nat, (d : ℚ) * 10 ^ k ∈ r.interval := by
  have hpos : (0 : ℚ) < 10 ^ k := by positivity
  have hlow : (0 : ℚ) ≤ r.low / one / 10 ^ k := by positivity
  have hfloor := mul_le_mul_of_nonneg_right (Nat.floor_le hlow) hpos.le
  have hnext := mul_lt_mul_of_pos_right (Nat.lt_floor_add_one ((r.low : ℚ) / one / 10 ^ k)) hpos
  rw [div_mul_cancel₀ _ hpos.ne'] at hfloor hnext
  refine ⟨⌊(r.low : ℚ) / one / 10 ^ k⌋₊ + 1, mem_interval_of_lt ?_ ?_⟩
  · rwa [Nat.cast_succ]
  · rw [Nat.cast_succ, add_one_mul]
    linarith

section Proper

variable (h : r.Proper)

include h

theorem Proper.pos_of_mem (hmem : (d : ℚ) * 10 ^ k ∈ r.interval) : 0 < d := by
  refine Nat.pos_of_ne_zero ?_
  rintro rfl
  have hlow : (0 : ℚ) < r.low / one := div_pos (Nat.cast_pos.mpr h.low_pos) cast_one_pos
  linarith [(bounds_of_mem hmem).1, zero_mul ((10 : ℚ) ^ k)]

/-- The search begins at a power of ten that is not below any it could end at. -/
theorem Proper.le_above (hmem : (d : ℚ) * 10 ^ k ∈ r.interval) : k ≤ r.above := by
  refine Int.not_lt.mp fun hlt => ?_
  have habove : (r.high : ℚ) / one < 10 ^ (r.above + 1) := (div_lt_zpow_iff_scale _ _).mpr h.above
  have hpow : (10 : ℚ) ^ (r.above + 1) ≤ 10 ^ k := zpow_le_zpow_right₀ (by norm_num) hlt
  have hone : (10 : ℚ) ^ k ≤ d * 10 ^ k :=
    le_mul_of_one_le_left (by positivity) (Nat.one_le_cast.mpr (h.pos_of_mem hmem))
  linarith [(bounds_of_mem hmem).2]

theorem Proper.above_lt {n : Int} (hlt : r.double < 10 ^ n) : r.above < n + 2 := by
  have hbelow : (10 : ℚ) ^ (r.above - 2) ≤ r.double :=
    not_lt.mp (mt (div_lt_zpow_iff_scale _ _).mp (Nat.not_lt.mpr h.below))
  have hpow := (zpow_lt_zpow_iff_right₀ (by norm_num)).mp (hbelow.trans_lt hlt)
  omega

theorem Proper.zpow_lt_width {n : Int} (hle : 10 ^ n ≤ r.double) :
    (10 : ℚ) ^ (n - 16) < r.high / one - r.low / one := by
  have hsplit : (10 : ℚ) ^ n = 10 ^ (n - 16) * 10 ^ 16 := by
    rw [← zpow_natCast, ← zpow_add₀ (by norm_num)]
    congr 1
    omega
  have hwide : (r.value : ℚ) < 10 ^ 16 * (r.high - r.low) := by
    have hcast : (r.value : ℚ) < ((10 ^ 16 * (r.high - r.low) : Nat) : ℚ) := Nat.cast_lt.mpr h.wide
    rwa [Nat.cast_mul, Nat.cast_sub (h.low_lt.trans h.lt_high).le, Nat.cast_pow, Nat.cast_ofNat] at hcast
  rw [double, le_div_iff₀ cast_one_pos, hsplit] at hle
  rw [← sub_div, lt_div_iff₀ cast_one_pos]
  linarith

/-- **Seventeen digits are enough**, at a power of ten that the search comes to. -/
theorem Proper.exists_mem :
    ∃ (d : Nat) (k : Int), d < 10 ^ 17 ∧ (d : ℚ) * 10 ^ k ∈ r.interval ∧ r.above < k + 20 := by
  have hpos : 0 < r.double := div_pos (Nat.cast_pos.mpr (h.low_pos.trans h.low_lt)) cast_one_pos
  obtain ⟨n, hle, hlt⟩ := exists_mem_Ico_zpow hpos (by norm_num : (1 : ℚ) < 10)
  have habove := h.above_lt hlt
  obtain ⟨d, hmem⟩ := exists_mul_zpow_mem (h.zpow_lt_width hle)
  by_cases hd : d < 10 ^ 17
  · exact ⟨d, n - 16, hd, hmem, by omega⟩
  · -- Between the double and a multiple with more digits there is a power of ten.
    have hpow : ((10 ^ 17 : Nat) : ℚ) * 10 ^ (n - 16) = (1 : Nat) * 10 ^ (n + 1) := by
      rw [cast_pow_mul_zpow]
      congr 2
      omega
    have hlow : r.double ≤ (10 ^ 17 : Nat) * 10 ^ (n - 16) := by
      rw [hpow, Nat.cast_one, one_mul]
      exact hlt.le
    have hbetween := r.interval_ordConnected.out h.double_mem hmem ⟨hlow, mul_zpow_le (Nat.not_lt.mp hd) (n - 16)⟩
    rw [hpow] at hbetween
    exact ⟨1, n + 1, by norm_num, hbetween, by omega⟩

/-- **What is found is the shortest.** -/
theorem Proper.isShortest_shortest (tie : Tie) : r.IsShortest tie (r.shortest tie).1 (r.shortest tie).2 := by
  obtain ⟨d, k, -, hmem, hfuel⟩ := h.exists_mem
  obtain ⟨hnearest, hcoarsest⟩ := search_spec tie h hmem (h.le_above hmem) hfuel
  refine ⟨hnearest, fun hmem' => ?_⟩
  exact Int.not_lt.mp fun hlt => hcoarsest _ hlt (h.le_above hmem') _ hmem'

omit h in
theorem IsShortest.unique {d' : Nat} {k' : Int} (hshortest : r.IsShortest tie d k)
    (hshortest' : r.IsShortest tie d' k') : d = d' ∧ k = k' := by
  obtain rfl := le_antisymm (hshortest'.coarsest hshortest.mem) (hshortest.coarsest hshortest'.mem)
  exact ⟨hshortest.toIsNearest.unique hshortest'.toIsNearest, rfl⟩

/-- No decimal in the interval has fewer digits. -/
theorem IsShortest.lt_pow (hshortest : r.IsShortest tie d k) {d' n : Nat} {k' : Int}
    (hmem : (d' : ℚ) * 10 ^ k' ∈ r.interval) (hd' : d' < 10 ^ n) : d < 10 ^ n := by
  refine Nat.not_le.mp fun hle => ?_
  have hlow : (d' : ℚ) * 10 ^ k' ≤ (10 ^ n : Nat) * 10 ^ k :=
    mul_le_mul (Nat.cast_le.mpr hd'.le) (zpow_le_zpow_right₀ (by norm_num) (hshortest.coarsest hmem))
      (by positivity) (by positivity)
  have hbetween := r.interval_ordConnected.out hmem hshortest.mem ⟨hlow, mul_zpow_le hle k⟩
  -- A power of ten in the interval has only one digit, which is on a coarser grid unless `n` is zero.
  rw [cast_pow_mul_zpow] at hbetween
  have hcoarser := hshortest.coarsest hbetween
  obtain rfl : n = 0 := by omega
  have hpos := h.pos_of_mem hmem
  omega

end Proper

/-! ## Doubles -/

/-- Where the search begins, by the logarithm of the double. -/
def aboveLog (n : Nat) : Int := ((n : Int) - 1075) * 30103 / 100000 + 1

/-- What the search needs of the power of ten at which it begins, for all doubles with a logarithm. -/
def bounds (n : Nat) : Bool :=
  decide (3 * 2 ^ n * scale (aboveLog n + 1) ≤ step (aboveLog n + 1)) &&
    decide (step (aboveLog n - 2) ≤ 2 ^ n * scale (aboveLog n - 2))

/-- The logarithm of two is near enough to `30103 / 100000` for all doubles. -/
theorem bounds_of_lt {n : Nat} (h : n < 2100) : bounds n = true := by
  have hall : (List.range 2100).all bounds = true := by decide +kernel
  exact List.all_eq_true.mp hall n (List.mem_range.mpr h)

/-- The interval of a double with a mantissa `m`. The gap below a power of two is half as wide. -/
theorem proper_of_mantissa {m s below : Nat} (hm : 0 < m) (hm' : m < 2 ^ 53) (hs : s < 2046)
    (hbelow : below = 2 ∨ below = 1 ∧ m = 2 ^ 52) (closed : Bool) :
    Proper ⟨(4 * m - below) * 2 ^ s, 4 * m * 2 ^ s, (4 * m + 2) * 2 ^ s, closed⟩ := by
  have hunit : 0 < 2 ^ s := Nat.two_pow_pos s
  have hne : 4 * m * 2 ^ s ≠ 0 := (Nat.mul_pos (by omega) hunit).ne'
  have hlog : (4 * m * 2 ^ s).log2 < 2100 := by
    rw [Nat.log2_lt hne]
    calc 4 * m * 2 ^ s < 2 ^ 55 * 2 ^ s := Nat.mul_lt_mul_of_pos_right (by omega) hunit
      _ = 2 ^ (55 + s) := (Nat.pow_add 2 55 s).symm
      _ ≤ 2 ^ 2100 := Nat.pow_le_pow_right (by decide) (by omega)
  have hhigh : (4 * m + 2) * 2 ^ s < 3 * 2 ^ (4 * m * 2 ^ s).log2 := by
    have hlt := Nat.lt_log2_self (n := 4 * m * 2 ^ s)
    have hhalf : 2 * ((4 * m + 2) * 2 ^ s) ≤ 3 * (4 * m * 2 ^ s) := by
      rw [← Nat.mul_assoc, ← Nat.mul_assoc]
      exact Nat.mul_le_mul_right _ (by omega)
    rw [Nat.pow_succ] at hlt
    omega
  obtain ⟨habove, hbelow'⟩ := (Bool.and_eq_true_iff.mp (bounds_of_lt hlog)).imp of_decide_eq_true of_decide_eq_true
  exact {
    low_pos := Nat.mul_pos (by omega) hunit
    low_lt := Nat.mul_lt_mul_of_pos_right (by omega) hunit
    lt_high := Nat.mul_lt_mul_of_pos_right (by omega) hunit
    wide := by
      dsimp only
      rw [← Nat.sub_mul, ← Nat.mul_assoc]
      exact Nat.mul_lt_mul_of_pos_right (by omega) hunit
    above := lt_of_lt_of_le (Nat.mul_lt_mul_of_pos_right hhigh (scale_pos _)) habove
    below := hbelow'.trans (Nat.mul_le_mul_right _ (Nat.log2_self_le hne)) }

/-- The interval of every positive finite double is as the search needs it. -/
theorem ofFields_proper {exponent fraction : Nat} (hexponent : exponent < 2047) (hfraction : fraction < 2 ^ 52)
    (hpos : ¬(exponent = 0 ∧ fraction = 0)) : (ofFields exponent fraction).Proper := by
  simp only [ofFields, Nat.pow_eq]
  refine proper_of_mantissa ?_ ?_ (by omega) ?_ _
  · split <;> omega
  · split <;> omega
  · split <;> split <;> omega

/-- The fields of the double that follows. -/
def next (exponent fraction : Nat) : Nat × Nat :=
  if fraction + 1 = 2 ^ 52 then (exponent + 1, 0) else (exponent, fraction + 1)

/-- **No gaps.** The interval of a double ends half way to the double that follows, and there the interval of that
one begins. -/
theorem ofFields_next (exponent fraction : Nat) :
    2 * (ofFields exponent fraction).high =
        (ofFields exponent fraction).value + (ofFields (next exponent fraction).1 (next exponent fraction).2).value ∧
      (ofFields (next exponent fraction).1 (next exponent fraction).2).low = (ofFields exponent fraction).high := by
  have hnext : ∀ m s : Nat, 2 * ((4 * m + 2) * 2 ^ s) = 4 * m * 2 ^ s + 4 * (m + 1) * 2 ^ s ∧
      (4 * (m + 1) - 2) * 2 ^ s = (4 * m + 2) * 2 ^ s := by
    intro m s
    constructor
    · ring
    · rw [show 4 * (m + 1) - 2 = 4 * m + 2 by omega]
  unfold next
  by_cases hlast : fraction + 1 = 2 ^ 52
  · obtain rfl : fraction = 2 ^ 52 - 1 := Nat.eq_sub_of_add_eq hlast
    cases exponent with
    | zero => simp [ofFields]
    | succ s =>
        -- Where the exponent is one more, the units are twice as large.
        simp only [ofFields, Nat.add_eq_zero_iff, one_ne_zero, and_false, ↓reduceIte, Nat.reducePow, Nat.pow_eq,
          lt_add_iff_pos_left, add_tsub_cancel_right, and_self, add_pos_iff, zero_lt_one, or_true]
        omega
  · rw [if_neg hlast]
    cases exponent with
    | zero => simpa [ofFields] using hnext fraction 0
    | succ s =>
        have hmantissa := hnext (fraction + 2 ^ 52) s
        rw [Nat.add_right_comm] at hmantissa
        simpa [ofFields] using hmantissa

section Fields

variable {exponent fraction : Nat} (hexponent : exponent < 2047) (hfraction : fraction < 2 ^ 52)
  (hpos : ¬(exponent = 0 ∧ fraction = 0))

include hexponent hfraction hpos

/-- **The digits of a double.** The search finds the one decimal that is the shortest. -/
theorem ofFields_shortest_eq_iff :
    (ofFields exponent fraction).shortest tie = (d, k) ↔ (ofFields exponent fraction).IsShortest tie d k := by
  have hproper := ofFields_proper hexponent hfraction hpos
  constructor
  · intro heq
    have hshortest := hproper.isShortest_shortest tie
    rwa [heq] at hshortest
  · intro hshortest
    exact Prod.ext_iff.mpr ((hproper.isShortest_shortest tie).unique hshortest)

/-- There are seventeen of them at most. -/
theorem ofFields_shortest_lt : ((ofFields exponent fraction).shortest tie).1 < 10 ^ 17 := by
  have hproper := ofFields_proper hexponent hfraction hpos
  obtain ⟨d, k, hd, hmem, -⟩ := hproper.exists_mem
  exact (hproper.isShortest_shortest tie).lt_pow hproper hmem hd

end Fields

-- The double next to one tenth, and the least double of all.
example :
    (ofFields 1019 0x999999999999a).shortest .toEven = (1, -1) ∧ (ofFields 0 1).shortest .toEven = (5, -324) := by
  decide +kernel

end Mapsto.Decimal.Rounding
