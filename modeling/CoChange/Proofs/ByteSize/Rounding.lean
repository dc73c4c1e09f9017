import CoChange.ByteSize
import CoChange.Proofs.Binary64.Truncation

/-!
# Natural numbers in fifty-three bits

`ByteSize.roundToDouble` is specified without a word on how it computes: `NearestDouble n r` says
that `r` has fifty-three significant bits at most, that no such number is nearer to `n`, and which
one of two is taken.

* **`nearestDouble_roundToDouble`**, **`nearestDouble_iff`**: a natural number is rounded to the
  nearest double, and there is one only.
* **`roundToDouble_mul_two_pow`**: a power of two goes through the rounding, so a number of
  fifty-three significant bits is left as it is.
* **`Binary64.floor?_ofNat`**: what is read back from a natural number as a floating point number.
* **`Binary64.ofNat_mul_two_pow`**: the rounded product of a natural number and a power of two.
-/

namespace CoChange.ByteSize

open Decimal (roundDiv roundDiv_mul_left roundDiv_mul_self two_mul_roundDiv_le)

/-! ## Significant bits -/

/-- A natural number has at most `b` significant bits. -/
def SignificantBits (b n : Nat) : Prop := ∃ m k, m < 2 ^ b ∧ n = m * 2 ^ k

theorem significantBits_of_lt {b n : Nat} (h : n < 2 ^ b) : SignificantBits b n :=
  ⟨n, 0, h, by simp⟩

theorem significantBits_two_pow (b k : Nat) : SignificantBits (b + 1) (2 ^ k) :=
  ⟨1, k, Nat.one_lt_two_pow (Nat.succ_ne_zero b), (Nat.one_mul _).symm⟩

/-- The first number with one bit more is a power of two. -/
theorem significantBits_of_le {b m : Nat} (h : m ≤ 2 ^ (b + 1)) (k : Nat) :
    SignificantBits (b + 1) (m * 2 ^ k) := by
  rcases Nat.lt_or_eq_of_le h with hlt | rfl
  · exact ⟨m, k, hlt, rfl⟩
  · rw [← Nat.pow_add]
    exact significantBits_two_pow b _

/-- A number `r` with fifty-three significant bits is nearest to `n`; of two such numbers the one is
taken that has a bit less. -/
structure NearestDouble (n r : Nat) : Prop where
  fits : SignificantBits 53 r
  nearest : ∀ s, SignificantBits 53 s → |(n : Int) - r| ≤ |(n : Int) - s|
  tie : ∀ s, SignificantBits 53 s → s ≠ r → |(n : Int) - s| = |(n : Int) - r| → SignificantBits 52 r

/-- Rounding never crosses a number that needs no rounding. -/
theorem NearestDouble.le_of_le {n r s : Nat} (h : NearestDouble n r) (hs : SignificantBits 53 s)
    (hle : s ≤ n) :
    s ≤ r := by
  have := h.nearest s hs
  rw [abs_of_nonneg (by omega : (0 : Int) ≤ n - s)] at this
  have := le_abs_self ((n : Int) - r)
  omega

/-! ## Rounding -/

variable {n : Nat}

/-- The number of bits that are rounded away. -/
def surplusBits (n : Nat) : Nat := n.log2 - 52

/-- A number with surplus bits has them in front of the 53 that are kept. -/
theorem log2_of_surplusBits (h : surplusBits n ≠ 0) : n.log2 = surplusBits n + 52 := by
  rw [surplusBits] at h ⊢
  omega

/-- To round to a double is to round off the bits beyond the fifty-third, half-way cases to the even
neighbour. -/
theorem roundToDouble_eq (n : Nat) :
    roundToDouble n = roundDiv n (2 ^ surplusBits n) * 2 ^ surplusBits n := by
  rw [roundToDouble]
  split
  · -- with so few bits there is nothing to round off
    rename_i hfew
    have hzero : surplusBits n = 0 := by
      by_contra hne
      have hpos : n ≠ 0 := by rintro rfl; exact hne rfl
      have := (Nat.log2_lt hpos).mpr hfew
      have := log2_of_surplusBits hne
      omega
    have hself := roundDiv_mul_self n 1 Nat.one_pos
    rw [Nat.mul_one] at hself
    rw [hzero, Nat.pow_zero, hself, Nat.mul_one]
  · rfl

/-- A number without bits beyond the fifty-third is a double already. -/
theorem roundToDouble_of_dvd (h : 2 ^ surplusBits n ∣ n) : roundToDouble n = n := by
  obtain ⟨q, hq⟩ := h
  rw [roundToDouble_eq]
  generalize 2 ^ surplusBits n = unit at hq
  rcases Nat.eq_zero_or_pos unit with rfl | hpos
  · rw [hq, Nat.mul_zero, Nat.zero_mul]
  · rw [hq, Nat.mul_comm unit q, roundDiv_mul_self q unit hpos]

/-- What has no more than 53 bits is a double as it is. -/
theorem roundToDouble_of_lt (h : n < 2 ^ 53) : roundToDouble n = n := if_pos h

/-- Zeros at the end of a number are so many bits more. -/
theorem log2_mul_two_pow (hn : n ≠ 0) (j : Nat) : (n * 2 ^ j).log2 = n.log2 + j := by
  have hpos : n * 2 ^ j ≠ 0 := Nat.mul_ne_zero hn (Nat.two_pow_pos j).ne'
  refine (Nat.log2_eq_iff hpos).mpr ⟨?_, ?_⟩
  · rw [Nat.pow_add]
    exact Nat.mul_le_mul_right _ (Nat.log2_self_le hn)
  · rw [Nat.add_right_comm, Nat.pow_add]
    exact Nat.mul_lt_mul_of_pos_right Nat.lt_log2_self (Nat.two_pow_pos j)

/-- **A power of two goes through the rounding.** The bits beyond the fifty-third are as many more
as the power has zeros, so the same bits are rounded off. -/
theorem roundToDouble_mul_two_pow (n j : Nat) :
    roundToDouble (n * 2 ^ j) = roundToDouble n * 2 ^ j := by
  rcases Nat.eq_zero_or_pos n with rfl | hpos
  · rw [Nat.zero_mul, roundToDouble_of_lt (by decide), Nat.zero_mul]
  have hlog := log2_mul_two_pow hpos.ne' j
  rcases Nat.lt_or_ge n (2 ^ 53) with hfew | hmany
  · -- few bits of the product are rounded away, and they are zeros
    have := (Nat.log2_lt hpos.ne').mpr hfew
    have hle : surplusBits (n * 2 ^ j) ≤ j := by
      rw [surplusBits]
      omega
    rw [roundToDouble_of_lt hfew, roundToDouble_of_dvd (Dvd.dvd.mul_left (Nat.pow_dvd_pow 2 hle) n)]
  · have := (Nat.le_log2 hpos.ne').mpr hmany
    have hsurplus : surplusBits (n * 2 ^ j) = j + surplusBits n := by
      rw [surplusBits, surplusBits]
      omega
    rw [roundToDouble_eq, roundToDouble_eq n, hsurplus, Nat.pow_add, Nat.mul_comm n,
      roundDiv_mul_left (Nat.two_pow_pos j), Nat.mul_comm (2 ^ j) (2 ^ surplusBits n),
      Nat.mul_assoc]

/-- **What has fifty-three significant bits is left as it is.** The bits that would be rounded off
are zero. -/
theorem SignificantBits.roundToDouble_eq_self (h : SignificantBits 53 n) : roundToDouble n = n := by
  obtain ⟨m, k, hm, rfl⟩ := h
  rw [roundToDouble_mul_two_pow, roundToDouble_of_lt hm]

/-! ## The significand -/

/-- The significand that a number is rounded to is at most half a unit off, and less than that if it
is odd. -/
theorem significand_near (n : Nat) {unit : Nat} (hunit : 0 < unit) :
    2 * |(n : Int) - roundDiv n unit * unit| ≤ unit ∧
    (roundDiv n unit % 2 = 1 → 2 * |(n : Int) - roundDiv n unit * unit| < unit) := by
  have hdiv := Nat.div_add_mod n unit
  have hmod := Nat.mod_lt n hunit
  have hsucc : (n / unit + 1) * unit = unit * (n / unit) + unit := by
    rw [Nat.succ_mul, Nat.mul_comm]
  have hself : n / unit * unit = unit * (n / unit) := Nat.mul_comm _ _
  rw [← Nat.cast_mul]
  simp only [roundDiv]
  -- below half a unit, above it, and half a unit, which goes to the even neighbour
  split
  · rw [hself, abs_of_nonneg (by omega)]
    omega
  · split
    · rw [hsucc, abs_of_nonpos (by omega)]
      omega
    · rcases Nat.mod_two_eq_zero_or_one (n / unit) with heven | hodd
      · rw [heven, Nat.add_zero, hself, abs_of_nonneg (by omega)]
        omega
      · rw [hodd, hsucc, abs_of_nonpos (by omega)]
        omega

/-- The significand keeps its leading bit when the bits that go are rounded off. -/
theorem le_significand (h : 2 ^ 52 * 2 ^ surplusBits n ≤ n) :
    2 ^ 52 ≤ roundDiv n (2 ^ surplusBits n) := by
  obtain ⟨hlow, -⟩ := two_mul_roundDiv_le n _ (Nat.two_pow_pos (surplusBits n))
  have hunit := Nat.two_pow_pos (surplusBits n)
  generalize 2 ^ surplusBits n = unit at *
  by_contra hlt
  have := Nat.mul_le_mul_left unit (show roundDiv n unit + 1 ≤ 2 ^ 52 by omega)
  rw [Nat.mul_succ, Nat.mul_comm unit (2 ^ 52)] at this
  omega

/-- The significand may be rounded up to the next power of two, and no further. There it is as good
as a significand of fifty-three bits with one bit more of exponent. -/
theorem significand_le (n : Nat) : roundDiv n (2 ^ surplusBits n) ≤ 2 ^ 53 := by
  obtain ⟨-, hhigh⟩ := two_mul_roundDiv_le n _ (Nat.two_pow_pos (surplusBits n))
  have hunit := Nat.two_pow_pos (surplusBits n)
  have hn : n < 2 ^ 53 * 2 ^ surplusBits n := by
    rw [← Nat.pow_add]
    refine Nat.lt_of_lt_of_le Nat.lt_log2_self (Nat.pow_le_pow_right two_pos ?_)
    rw [surplusBits]
    omega
  generalize 2 ^ surplusBits n = unit at *
  by_contra hlt
  have := Nat.mul_le_mul_left unit (show 2 ^ 53 + 1 ≤ roundDiv n unit by omega)
  rw [Nat.mul_succ, Nat.mul_comm unit (2 ^ 53)] at this
  omega

/-- A number with surplus bits has a bit in front of them and of 52 more. -/
theorem two_pow_le_of_surplusBits (h : surplusBits n ≠ 0) : 2 ^ 52 * 2 ^ surplusBits n ≤ n := by
  have hn : n ≠ 0 := by rintro rfl; exact h rfl
  rw [← Nat.pow_add, Nat.add_comm, ← log2_of_surplusBits h]
  exact Nat.log2_self_le hn

/-! ## The nearest double -/

/-- A number of fifty-three significant bits counts units, or lies below the first of them with as
many bits. -/
theorem SignificantBits.counts_or_below {s : Nat} (h : SignificantBits 53 s) (n : Nat) :
    (∃ t, s = t * 2 ^ surplusBits n) ∨
    (s < 2 ^ 52 * 2 ^ surplusBits n ∧ 2 ^ 52 * 2 ^ surplusBits n ≤ n) := by
  obtain ⟨m, j, hm, rfl⟩ := h
  rcases Nat.lt_or_ge j (surplusBits n) with hlt | hge
  · refine .inr ⟨?_, two_pow_le_of_surplusBits (by omega)⟩
    calc m * 2 ^ j < 2 ^ 53 * 2 ^ j := Nat.mul_lt_mul_of_pos_right hm (Nat.two_pow_pos j)
      _ = 2 ^ (52 + (j + 1)) := by rw [← Nat.pow_add]; congr 1; omega
      _ ≤ 2 ^ (52 + surplusBits n) := Nat.pow_le_pow_right two_pos (by omega)
      _ = 2 ^ 52 * 2 ^ surplusBits n := Nat.pow_add ..
  · refine .inl ⟨m * 2 ^ (j - surplusBits n), ?_⟩
    rw [Nat.mul_assoc, ← Nat.pow_add, Nat.sub_add_cancel hge]

/-- Of two multiples of a unit one is a unit away from the other at least. -/
theorem unit_le_of_ne {q t : Nat} (h : t ≠ q) (unit : Nat) :
    (unit : Int) ≤ |(q * unit : Int) - t * unit| := by
  have hone : 1 ≤ |(q : Int) - t| := Int.one_le_abs (by omega)
  calc (unit : Int) = 1 * unit := (one_mul _).symm
    _ ≤ |(q : Int) - t| * unit := mul_le_mul_of_nonneg_right hone (Int.natCast_nonneg unit)
    _ = |(q * unit : Int) - t * unit| := by
      rw [← sub_mul, abs_mul, abs_of_nonneg (Int.natCast_nonneg unit)]

/-- A number is rounded to a multiple of the unit that is nearest, and it alone is if it is odd. -/
theorem significand_nearest (n : Nat) {unit : Nat} (hunit : 0 < unit) (t : Nat) :
    |(n : Int) - roundDiv n unit * unit| ≤ |(n : Int) - t * unit| ∧
    (roundDiv n unit % 2 = 1 → t ≠ roundDiv n unit →
      |(n : Int) - roundDiv n unit * unit| < |(n : Int) - t * unit|) := by
  obtain ⟨hnear, hodd⟩ := significand_near n hunit
  by_cases ht : t = roundDiv n unit
  · exact ⟨by rw [ht], fun _ hne => absurd ht hne⟩
  · have hgap := unit_le_of_ne ht unit
    have hsum := abs_sub_le ((roundDiv n unit : Int) * unit) n (t * unit)
    rw [abs_sub_comm _ (n : Int)] at hsum
    refine ⟨by omega, fun hq _ => ?_⟩
    have := hodd hq
    omega

/-- **A natural number is rounded to the nearest double.** It is a double itself, and rounding the
cleared bits takes the nearer neighbour, or the even one of two equally near. -/
theorem nearestDouble_roundToDouble (n : Nat) : NearestDouble n (roundToDouble n) := by
  have hunit := Nat.two_pow_pos (surplusBits n)
  have hfits := significantBits_of_le (significand_le n) (surplusBits n)
  have hcast : (roundToDouble n : Int) =
      roundDiv n (2 ^ surplusBits n) * (2 ^ surplusBits n : Nat) := by
    rw [roundToDouble_eq]
    exact Nat.cast_mul _ _
  -- a finer number lies below the multiple of the unit that has as many bits, and so is no nearer
  have hbelow {s : Nat} (hs : s < 2 ^ 52 * 2 ^ surplusBits n)
      (hn : 2 ^ 52 * 2 ^ surplusBits n ≤ n) :
      |(n : Int) - roundToDouble n| < |(n : Int) - s| := by
    have hle := (significand_nearest n hunit (2 ^ 52)).1
    rw [← hcast, ← Nat.cast_mul,
      abs_of_nonneg (by omega : (0 : Int) ≤ n - (2 ^ 52 * 2 ^ surplusBits n : Nat))] at hle
    rw [abs_of_nonneg (by omega : (0 : Int) ≤ n - s)]
    omega
  refine ⟨roundToDouble_eq n ▸ hfits, fun s hs => ?_, fun s hs hne htie => ?_⟩
  · rcases hs.counts_or_below n with ⟨t, rfl⟩ | ⟨hs, hn⟩
    · rw [hcast, Nat.cast_mul]
      exact (significand_nearest n hunit t).1
    · exact (hbelow hs hn).le
  · rcases Nat.mod_two_eq_zero_or_one (roundDiv n (2 ^ surplusBits n)) with heven | hodd
    · have hhalf : roundToDouble n =
          roundDiv n (2 ^ surplusBits n) / 2 * 2 ^ (surplusBits n + 1) := by
        rw [roundToDouble_eq, Nat.pow_succ', ← Nat.mul_assoc,
          Nat.div_mul_cancel (Nat.dvd_of_mod_eq_zero heven)]
      have hle := significand_le n
      rw [hhalf]
      exact significantBits_of_le (b := 51) (by omega) _
    · rcases hs.counts_or_below n with ⟨t, rfl⟩ | ⟨hs, hn⟩
      · have ht : t ≠ roundDiv n (2 ^ surplusBits n) := by
          rintro rfl
          exact hne (roundToDouble_eq n).symm
        have hlt := (significand_nearest n hunit t).2 hodd ht
        rw [← hcast, ← Nat.cast_mul] at hlt
        exact absurd htie hlt.ne'
      · exact absurd htie (hbelow hs hn).ne'

/-- With a bit more, there is a number half a unit above. -/
theorem significantBits_half_above {m k : Nat} (hm : m < 2 ^ 52) :
    SignificantBits 53 (m * 2 ^ (k + 1) + 2 ^ k) :=
  ⟨2 * m + 1, k, by omega, by rw [Nat.pow_succ']; ring⟩

/-- With a bit more, there is one half a unit below as well. -/
theorem significantBits_half_below {m k : Nat} (hm : m < 2 ^ 52) :
    SignificantBits 53 (m * 2 ^ (k + 1) - 2 ^ k) :=
  ⟨2 * m - 1, k, by omega, by rw [Nat.sub_mul, Nat.pow_succ', Nat.one_mul]; ring_nf⟩

/-- Of two nearest doubles neither is larger. If one were, the number would be half-way between
them, and of two neighbours just one has an even significand. -/
theorem NearestDouble.le_of_nearestDouble {n r r' : Nat} (h : NearestDouble n r)
    (h' : NearestDouble n r') : r' ≤ r := by
  by_contra hlt
  have htie : |(n : Int) - r'| = |(n : Int) - r| :=
    le_antisymm (h'.nearest r h.fits) (h.nearest r' h'.fits)
  have hmid : (n : Int) - r = r' - n := by
    rcases abs_eq_abs.mp htie with hsame | hopposite <;> omega
  -- what lies between the two numbers is nearer than either
  have hbetween {s : Nat} (hs : SignificantBits 53 s) : s ≤ r ∨ r' ≤ s := by
    by_contra hinside
    have hnear := h.nearest s hs
    rw [abs_of_nonneg (by omega : (0 : Int) ≤ n - r)] at hnear
    exact absurd hnear (not_le.mpr (abs_lt.mpr ⟨by omega, by omega⟩))
  obtain ⟨m, k, hm, hr⟩ := h.tie r' h'.fits (by omega) htie
  obtain ⟨m', k', hm', hr'⟩ := h'.tie r h.fits (by omega) htie.symm
  cases k with
  | zero =>
    have := hbetween (significantBits_of_lt (show r + 1 < 2 ^ 53 by omega))
    omega
  | succ k =>
    cases k' with
    | zero =>
      have := hbetween (significantBits_of_lt (show r' - 1 < 2 ^ 53 by omega))
      omega
    | succ k' =>
      have habove := hbetween (hr ▸ significantBits_half_above hm)
      have hbelow := hbetween (hr' ▸ significantBits_half_below hm')
      -- both numbers count the smaller unit, but are half of it apart at most
      have hfar {j : Nat} (hk : j ≤ k) (hk' : j ≤ k') : 2 ^ (j + 1) ≤ r' - r := by
        refine Nat.le_of_dvd (by omega) (Nat.dvd_sub (hr' ▸ ?_) (hr ▸ ?_))
        · exact Dvd.dvd.mul_left (Nat.pow_dvd_pow 2 (by omega)) m'
        · exact Dvd.dvd.mul_left (Nat.pow_dvd_pow 2 (by omega)) m
      have := Nat.two_pow_pos k
      have := Nat.two_pow_pos k'
      rcases Nat.le_total k k' with hle | hle
      · have := hfar le_rfl hle
        rw [Nat.pow_succ'] at this
        omega
      · have := hfar hle le_rfl
        rw [Nat.pow_succ'] at this
        omega

/-- **There is one nearest double**, the number that is rounded to. Rounding gives one, and of two
nearest doubles neither can be larger. -/
theorem nearestDouble_iff {n r : Nat} : NearestDouble n r ↔ r = roundToDouble n := by
  have hround := nearestDouble_roundToDouble n
  exact ⟨fun h => Nat.le_antisymm (hround.le_of_nearestDouble h) (h.le_of_nearestDouble hround),
    fun h => h ▸ hround⟩

end CoChange.ByteSize

/-! ## Natural numbers as floating point numbers -/

namespace CoChange.Binary64

open ByteSize
open Decimal (ratio scaleRatio ratio_scaleRatio scaleRatio_pos roundDiv roundDiv_mul_self)

variable {n : Nat}

/-- The last place of a natural number is the one of its first fifty-three bits. -/
theorem lastPlace_one (hn : n ≠ 0) : lastPlace n 1 = n.log2 - 52 := by
  obtain ⟨hfew, -, hmany⟩ := lastPlace_spec (Nat.pos_of_ne_zero hn) Nat.one_pos
  have hlow : (n.log2 : Int) < lastPlace n 1 + 53 := by
    rw [Nat.cast_one, div_one] at hfew
    exact (zpow_lt_zpow_iff_right₀ one_lt_two).mp (lt_of_le_of_lt (log2_le_cast hn) hfew)
  rcases hmany with hleast | hmany
  · omega
  · have hhigh : lastPlace n 1 + 52 < (n.log2 + 1 : Int) := by
      rw [Nat.cast_one, div_one] at hmany
      exact (zpow_lt_zpow_iff_right₀ one_lt_two).mp (lt_of_le_of_lt hmany (cast_lt_log2 n))
    omega

/-- The number with a full significand and an exponent, infinite if there is no such number. -/
def pack (significand exponent : Nat) : Binary64 :=
  if 2047 * 2 ^ 52 ≤ (exponent + 1074) * 2 ^ 52 + significand then infinity false
  else ofMagnitude false ((exponent + 1074) * 2 ^ 52 + significand)

/-- A number of fifty-three bits or more is packed as it is rounded. -/
theorem ofNat_eq_pack {k : Nat} (hlog : n.log2 = k + 52) :
    ofNat n = pack (roundDiv n (2 ^ k)) k := by
  have hn : n ≠ 0 := by
    rintro rfl
    rw [Nat.log2_zero] at hlog
    omega
  have hsurplus : surplusBits n = k := by
    rw [surplusBits]
    omega
  have hplace : lastPlace n 1 = k := by
    rw [lastPlace_one hn]
    omega
  -- scaling by the last place is the division by `2 ^ k`
  have hround : roundDiv (scaleRatio 2 (-(k : Int)) n 1).1 (scaleRatio 2 (-(k : Int)) n 1).2 =
      roundDiv n (2 ^ k) := by
    refine @Decimal.roundDiv_congr
      _ (n, 2 ^ k) (scaleRatio_pos two_pos Nat.one_pos _ _) (Nat.two_pow_pos k) ?_
    rw [ratio_scaleRatio, ratio, zpow_neg, zpow_natCast]
    push_cast
    rw [div_one, div_eq_mul_inv]
  have hfull : ¬ roundDiv n (2 ^ k) < 2 ^ 52 := by
    refine Nat.not_lt.mpr (hsurplus ▸ le_significand ?_)
    rw [hsurplus, ← Nat.pow_add, Nat.add_comm, ← hlog]
    exact Nat.log2_self_le hn
  have hfield : ((k : Int) + 1074).toNat = k + 1074 := by omega
  rw [ofNat, ofRatio, if_neg hn, hplace]
  simp only [hround, if_neg hfull, hfield]
  rfl

/-- A full significand with zeros behind it is the double of this significand and exponent. -/
theorem ofNat_mul_two_pow_eq_pack {q : Nat} (hlow : 2 ^ 52 ≤ q) (hhigh : q < 2 ^ 53) (k : Nat) :
    ofNat (q * 2 ^ k) = pack q k := by
  have hq : q ≠ 0 := by omega
  have hlog : (q * 2 ^ k).log2 = k + 52 := by
    rw [log2_mul_two_pow hq, (Nat.log2_eq_iff hq).mpr ⟨hlow, hhigh⟩, Nat.add_comm]
  rw [ofNat_eq_pack hlog, roundDiv_mul_self _ _ (Nat.two_pow_pos k)]

/-- A number of more than fifty-three bits is packed with a full significand; one that is rounded up
to the next power of two is carried. -/
theorem exists_pack (h : 2 ^ 53 ≤ n) :
    ∃ q k, 2 ^ 52 ≤ q ∧ q < 2 ^ 53 ∧ roundToDouble n = q * 2 ^ k ∧ ofNat n = pack q k := by
  have hn : n ≠ 0 := by omega
  have hlog := (Nat.le_log2 hn).mpr h
  have hne : surplusBits n ≠ 0 := by
    rw [surplusBits]
    omega
  have hpack := ofNat_eq_pack (log2_of_surplusBits hne)
  have hround := roundToDouble_eq n
  have hfull := le_significand (two_pow_le_of_surplusBits hne)
  -- rounded up to the next power of two, the significand has one bit too many and is halved
  rcases Nat.lt_or_eq_of_le (significand_le n) with hlt | hcarry
  · exact ⟨_, _, hfull, hlt, hround, hpack⟩
  · rw [hcarry] at hround hpack
    refine ⟨2 ^ 52, surplusBits n + 1, le_rfl, by decide, ?_, ?_⟩
    · rw [hround, ← Nat.pow_add, ← Nat.pow_add]
      congr 1
      omega
    · have hpattern : (surplusBits n + 1074) * 2 ^ 52 + 2 ^ 53 =
          (surplusBits n + 1 + 1074) * 2 ^ 52 + 2 ^ 52 := by
        omega
      rw [hpack, pack, pack, hpattern]

/-- **A natural number is rounded once.** To round what has been rounded changes nothing. -/
theorem ofNat_roundToDouble (n : Nat) : ofNat (roundToDouble n) = ofNat n := by
  rcases Nat.lt_or_ge n (2 ^ 53) with hfew | hmany
  · rw [roundToDouble_of_lt hfew]
  · obtain ⟨q, k, hlow, hhigh, hround, hpack⟩ := exists_pack hmany
    rw [hround, hpack, ofNat_mul_two_pow_eq_pack hlow hhigh]

/-- The double of a significand and an exponent is seen as these, unless it is too large. -/
theorem view_pack {q k : Nat} (hlow : 2 ^ 52 ≤ q) (hhigh : q < 2 ^ 53) (hk : k ≤ 971) :
    (pack q k).view = .finite false q k := by
  have hpattern : magnitude q k = (k + 1074) * 2 ^ 52 + q := by
    rw [magnitude, if_neg (Nat.not_lt.mpr hlow)]
    omega
  rw [pack, if_neg (by omega), ← hpattern]
  exact view_ofMagnitude ⟨hhigh, by omega, by omega, .inl hlow⟩

/-- The first power of two that is no finite number. -/
def bound : Nat := 2 ^ 1024

/-- Powers of two up to the largest exponent are at most the bound of all doubles. -/
theorem two_pow_le_bound {k : Nat} (h : k ≤ 1024) : 2 ^ k ≤ bound := by
  rwa [bound, pow_le_pow_iff_right₀ one_lt_two]

/-- The bound of all doubles is a power of two, so it has one significant bit. -/
theorem significantBits_bound : SignificantBits 53 bound := by
  rw [bound]
  exact significantBits_two_pow 52 1024

/-- A natural number is finite as a floating point number if it is rounded to something below the
bound. -/
theorem exists_view_ofNat_of_lt (h : roundToDouble n < bound) :
    ∃ m e, (ofNat n).view = .finite false m e ∧ (m : ℚ) * 2 ^ e = roundToDouble n := by
  rcases Nat.lt_or_ge n (2 ^ 53) with hfew | hmany
  · rw [roundToDouble_of_lt hfew]
    exact exists_view_ofNat hfew
  · obtain ⟨q, k, hlow, hhigh, hround, hpack⟩ := exists_pack hmany
    -- what is rounded stays below the bound, so the exponent is in range
    have hpower : 2 ^ (52 + k) < bound := by
      refine lt_of_le_of_lt ?_ (hround ▸ h)
      rw [Nat.pow_add]
      exact Nat.mul_le_mul_right _ hlow
    rw [bound, pow_lt_pow_iff_right₀ one_lt_two] at hpower
    rw [hpack, hround]
    refine ⟨q, k, view_pack hlow hhigh (by omega), ?_⟩
    push_cast
    rw [zpow_natCast]

/-- It is infinite otherwise. -/
theorem ofNat_of_ge (h : bound ≤ roundToDouble n) : ofNat n = infinity false := by
  have hmany : 2 ^ 53 ≤ n := by
    by_contra hfew
    rw [roundToDouble_of_lt (Nat.lt_of_not_le hfew)] at h
    exact hfew ((two_pow_le_bound (by decide)).trans h)
  obtain ⟨q, k, hlow, hhigh, hround, hpack⟩ := exists_pack hmany
  have hpower : bound < 2 ^ (53 + k) := by
    refine lt_of_le_of_lt (hround ▸ h) ?_
    rw [Nat.pow_add]
    exact Nat.mul_lt_mul_of_pos_right hhigh (Nat.two_pow_pos k)
  rw [bound, pow_lt_pow_iff_right₀ one_lt_two] at hpower
  rw [hpack, pack, if_pos (by omega)]

theorem view_infinity (s : Bool) : (infinity s).view = .infinite s := by
  cases s <;> decide

/-- **What is read back from a natural number.** It is the rounded number, if that is small enough
to be a number of bytes. -/
theorem floor?_ofNat (n : Nat) :
    (ofNat n).floor? = if roundToDouble n < bound then some (roundToDouble n) else none := by
  split
  · rename_i hlt
    obtain ⟨m, e, hview, hvalue⟩ := exists_view_ofNat_of_lt hlt
    rw [floor?_of_view hview, hvalue, Nat.floor_natCast]
  · rename_i hge
    rw [ofNat_of_ge (Nat.not_lt.mp hge), floor?, view_infinity]

/-- Digits without a fraction are rounded as the natural number they write. -/
theorem ofDecimal_zero (n : Nat) : ofDecimal false n 0 = ofNat n := by
  rcases Nat.eq_zero_or_pos n with rfl | hpos
  · rfl
  rw [ofDecimal, if_neg hpos.ne']
  simp only [add_zero]
  -- no finite number is cut off at the upper end, and nothing without a fraction at the lower one
  split
  · rename_i hhuge
    have hlog : 1024 ≤ n.log2 := by omega
    have hlarge : bound ≤ n := by
      refine le_trans ?_ (Nat.log2_self_le hpos.ne')
      rwa [bound, pow_le_pow_iff_right₀ one_lt_two]
    exact (ofNat_of_ge ((nearestDouble_roundToDouble n).le_of_le significantBits_bound hlarge)).symm
  · rw [if_neg (by omega)]
    exact congrArg (ofRatio false · 1) (Nat.mul_one n)

/-- **A product with a power of two is the product, rounded once.** The first factor is rounded when
it is made, and the product with the power is exact. -/
theorem ofNat_mul_two_pow (n : Nat) {j : Nat} (hj : j < 53) :
    ofNat n * ofNat (2 ^ j) = ofNat (n * 2 ^ j) := by
  obtain ⟨u, f, hunit, hpower⟩ := exists_view_ofNat (Nat.pow_lt_pow_right one_lt_two hj)
  have hround := roundToDouble_mul_two_pow n j
  show mul (ofNat n) (ofNat (2 ^ j)) = _
  rcases Nat.lt_or_ge (roundToDouble n) bound with hlt | hge
  · -- the exact product of the two numbers is what the product is rounded to
    obtain ⟨m, e, hview, hvalue⟩ := exists_view_ofNat_of_lt hlt
    rw [mul, hview, hunit, ← ofNat_roundToDouble, hround]
    refine ofRatio_congr _ (scaleRatio_pos two_pos Nat.one_pos _ _) Nat.one_pos ?_
    refine (ratio_scaleRatio 2 (e + f) (m * u) 1).trans ?_
    push_cast
    rw [div_one, div_one, zpow_add₀ two_ne_zero, mul_mul_mul_comm, hvalue, hpower]
    push_cast
    rfl
  · have hu : u ≠ 0 := by
      rintro rfl
      rw [Nat.cast_zero, zero_mul] at hpower
      exact (Nat.two_pow_pos j).ne (by exact_mod_cast hpower)
    have hproduct : bound ≤ roundToDouble (n * 2 ^ j) :=
      hround ▸ Nat.le_trans hge (Nat.le_mul_of_pos_right _ (Nat.two_pow_pos j))
    rw [mul, ofNat_of_ge hge, view_infinity, hunit, ofNat_of_ge hproduct]
    simp only [if_neg hu]
    rfl

end CoChange.Binary64
