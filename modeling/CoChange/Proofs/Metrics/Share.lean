import CoChange.Metrics.Basic
import CoChange.Proofs.Binary64.Quotient

/-!
# Shares

Scores and strengths are shares of one count in another. A report has them as floating point
numbers; here they are read exactly (`exactShare`). For counts of fifty-three bits the two differ by
one rounding (`share_eq_ofRatio`).
-/

namespace CoChange

/-- The share of a part in the whole without any rounding, zero of nothing. -/
def exactShare (part whole : Nat) : ℚ := if whole = 0 then 0 else part / whole

section Exact

variable {part part' whole : Nat}

theorem exactShare_le_one (h : part ≤ whole) : exactShare part whole ≤ 1 := by
  rw [exactShare]
  split
  · exact zero_le_one
  · exact div_le_one_of_le₀ (Nat.cast_le.mpr h) (Nat.cast_nonneg whole)

theorem exactShare_pos (hpart : 0 < part) (h : part ≤ whole) : 0 < exactShare part whole := by
  have hwhole : 0 < whole := Nat.lt_of_lt_of_le hpart h
  rw [exactShare, if_neg hwhole.ne']
  positivity

theorem exactShare_eq_one_iff (hwhole : 0 < whole) : exactShare part whole = 1 ↔ part = whole := by
  rw [exactShare, if_neg hwhole.ne', div_eq_one_iff_eq (Nat.cast_ne_zero.mpr hwhole.ne'),
    Nat.cast_inj]

end Exact

/-- **A share of counts is its exact value, rounded once.** Both counts are doubles as they are,
below the bound, so the quotient is the only step that rounds. -/
theorem share_eq_ofRatio {part whole : Nat} (h : part ≤ whole) (hwhole : whole < 2 ^ 53) :
    share part whole = .ofRatio false part whole := by
  rw [share]
  split
  · rename_i hzero
    subst hzero
    rw [Nat.le_zero.mp h, Binary64.ofRatio, if_pos rfl]
  · rename_i hpos
    exact Binary64.ofNat_div_ofNat (Nat.lt_of_le_of_lt h hwhole) (Nat.pos_of_ne_zero hpos) hwhole

end CoChange
