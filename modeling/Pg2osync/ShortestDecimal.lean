import Mathlib.Tactic.Linarith
import Mathlib.Tactic.Ring
import Pg2osync.Decimal

/-!
# Doubles and their shortest decimals

A double of so many units has a last place, which is the gap to the double above it; the one below
it is nearer only where the units are a power of two. What is nearer to it than to both is read as
it. Decimals of seventeen digits are nearer to each other than doubles are, so one of the two next
to a double is read as it, and a double that is an integer is one of those without a point.
-/

namespace Double

/-! ## Rounding -/

/-- The units nearest to a fraction of them. -/
def nearest (n d : ℕ) : ℕ :=
  roundHalfEven n (d * 2 ^ (Nat.log2 (n / d) - 52)) * 2 ^ (Nat.log2 (n / d) - 52)

theorem ofFraction_eq (negative : Bool) (n d : ℕ) : ofFraction negative n d =
    if 2 ^ 1024 * one ≤ nearest (n * one) d then .infinite negative
    else .finite (if negative then -(nearest (n * one) d : ℤ) else nearest (n * one) d) := rfl

/-- The last place of a number of units. -/
def gap (u : ℕ) : ℕ :=
  2 ^ (Nat.log2 u - 52)

theorem gap_pos (u : ℕ) : 0 < gap u :=
  Nat.two_pow_pos _

theorem lt_gap (u : ℕ) : u < 2 ^ 53 * gap u := by
  have hlt : u < 2 ^ (Nat.log2 u + 1) := Nat.lt_log2_self
  rw [gap, ← pow_add]
  exact hlt.trans_le (Nat.pow_le_pow_right (by decide) (by omega))

/-- Rounding gives the integer that is within one half. -/
theorem roundHalfEven_eq {n d r : ℕ} (habove : 2 * n < 2 * (d * r) + d)
    (hbelow : 2 * (d * r) < 2 * n + d) : roundHalfEven n d = r := by
  have hd : 0 < d := by omega
  have hn := Nat.div_add_mod n d
  have hm := Nat.mod_lt n hd
  unfold roundHalfEven
  generalize n / d = q at hn
  generalize n % d = m at hn hm
  -- the quotient is the integer or the one below it
  have hle : q ≤ r := by
    by_contra hlt
    have := Nat.mul_le_mul_left d (show r + 1 ≤ q by omega)
    rw [Nat.mul_succ] at this
    omega
  have hge : r ≤ q + 1 := by
    by_contra hlt
    have := Nat.mul_le_mul_left d (show q + 2 ≤ r by omega)
    rw [Nat.mul_add] at this
    omega
  rcases Nat.lt_or_eq_of_le hle with hlt | rfl
  · obtain rfl : r = q + 1 := by omega
    rw [Nat.mul_succ] at hbelow
    dsimp only
    rw [if_neg (by omega), if_pos (by omega)]
  · dsimp only
    rw [if_pos (by omega)]

theorem le_roundHalfEven (n d : ℕ) : n / d ≤ roundHalfEven n d := by
  simp only [roundHalfEven]
  split
  · omega
  · split <;> omega

theorem roundHalfEven_mono {m n d : ℕ} (h : m ≤ n) : roundHalfEven m d ≤ roundHalfEven n d := by
  have hdiv := Nat.div_le_div_right h (c := d)
  rcases Nat.lt_or_eq_of_le hdiv with hlt | heq
  · exact (roundHalfEven_le m d).trans (hlt.trans_le (le_roundHalfEven n d))
  · have hm := Nat.div_add_mod m d
    have hn := Nat.div_add_mod n d
    have hmod : m % d ≤ n % d := by
      rw [heq] at hm
      omega
    simp only [roundHalfEven, heq]
    split_ifs <;> omega

/-- A multiple of the last place that rounding uses is rounded to if it is within one half. -/
theorem nearest_of_place {n d u c : ℕ} (hplace : 2 ^ (Nat.log2 (n / d) - 52) = c) (hc : c ∣ u)
    (habove : 2 * n < 2 * (u * d) + d * c) (hbelow : 2 * (u * d) < 2 * n + d * c) :
    nearest n d = u := by
  obtain ⟨r, rfl⟩ := hc
  have hmul : c * r * d = d * c * r := by ring
  rw [hmul] at habove hbelow
  rw [nearest, hplace, roundHalfEven_eq habove hbelow, Nat.mul_comm]

/-- **What is near enough to a double is read as it.** Below a power of two it has to be twice as
near. -/
theorem nearest_eq {n d u : ℕ} (hd : 0 < d) (hu : u ≠ 0) (hunits : gap u ∣ u)
    (habove : 2 * n < 2 * (u * d) + d * gap u) (hbelow : 2 * (u * d) < 2 * n + d * gap u)
    (htight : 52 < Nat.log2 u → u = 2 ^ Nat.log2 u → 4 * (u * d) < 4 * n + d * gap u) :
    nearest n d = u := by
  have hlow := Nat.log2_self_le hu
  have hhigh : u < 2 ^ (Nat.log2 u + 1) := Nat.lt_log2_self
  have hgap := gap_pos u
  have hplace : ∀ l, n / d ≠ 0 → 2 ^ l ≤ n / d → n / d < 2 ^ (l + 1) → Nat.log2 (n / d) = l :=
    fun l hne hge hlt => (Nat.log2_eq_iff hne).mpr ⟨hge, hlt⟩
  rcases Nat.lt_or_ge n (u * d) with hlt | hge
  · have hdiv : n / d < u := Nat.div_lt_of_lt_mul (by rwa [Nat.mul_comm])
    rcases Nat.lt_or_ge 52 (Nat.log2 u) with hlarge | hsmall
    · by_cases hpower : u = 2 ^ Nat.log2 u
      · -- just below a power of two the last place is half as large
        have hnear := htight hlarge hpower
        obtain ⟨l, hl⟩ : ∃ l, Nat.log2 u = l + 53 := ⟨Nat.log2 u - 53, by omega⟩
        have hgaps : gap u = 2 * 2 ^ l := by
          rw [gap, hl, show l + 53 - 52 = l + 1 by omega, pow_succ']
        rw [hl] at hpower
        have hu52 : u = 2 ^ 52 * gap u := by
          rw [hgaps]
          conv_lhs => rw [hpower, show l + 53 = 52 + 1 + l by omega, pow_add, pow_add]
          ring
        have hhalf : 2 ^ (l + 52) ≤ n / d := by
          rw [Nat.le_div_iff_mul_le hd]
          have hprod : 2 * (2 ^ (l + 52) * d) = u * d := by
            rw [hpower, show l + 53 = l + 52 + 1 by omega, pow_succ' _ (l + 52)]
            ring
          have hcross : d * gap u ≤ u * d := by
            rw [Nat.mul_comm u d]
            exact Nat.mul_le_mul_left d (by omega)
          omega
        have hlog := hplace (l + 52) (by have := Nat.two_pow_pos (l + 52); omega) hhalf
          (by rw [show l + 52 + 1 = l + 53 by omega, ← hpower]; exact hdiv)
        refine nearest_of_place (c := 2 ^ l) (by rw [hlog, Nat.add_sub_cancel]) ?_ ?_ ?_
        · exact (Dvd.intro_left 2 hgaps.symm).trans hunits
        · have := Nat.zero_le (d * 2 ^ l)
          omega
        · have hdouble : d * gap u = 2 * (d * 2 ^ l) := by
            rw [hgaps]
            ring
          omega
      · have hmore : 2 ^ Nat.log2 u + gap u ≤ u := by
          obtain ⟨a, ha⟩ := hunits
          have hpow : 2 ^ Nat.log2 u = gap u * 2 ^ 52 := by
            rw [gap, ← pow_add]
            congr 1
            omega
          have hlt' : gap u * 2 ^ 52 < gap u * a := by
            rw [← ha, ← hpow]
            omega
          have ha52 := Nat.lt_of_mul_lt_mul_left hlt'
          have := Nat.mul_le_mul_left (gap u) (show 2 ^ 52 + 1 ≤ a from ha52)
          rw [hpow]
          rw [← ha, Nat.mul_succ] at this
          exact this
        have hfloor : 2 ^ Nat.log2 u ≤ n / d := by
          rw [Nat.le_div_iff_mul_le hd]
          have := Nat.mul_le_mul_right d hmore
          rw [Nat.add_mul, Nat.mul_comm (gap u) d] at this
          have := Nat.mul_pos hd hgap
          omega
        have hlog := hplace _ (by have := Nat.two_pow_pos (Nat.log2 u); omega) hfloor (by omega)
        exact nearest_of_place (by rw [hlog]; rfl) hunits habove hbelow
    · -- where the last place is a unit it is for all below it
      have hunit : gap u = 1 := by rw [gap, Nat.sub_eq_zero_of_le hsmall, pow_zero]
      have hlog : Nat.log2 (n / d) - 52 = 0 := by
        by_cases hzero : n / d = 0
        · rw [hzero]
          rfl
        · have := (Nat.log2_lt hzero).mpr (hdiv.trans hhigh)
          omega
      exact nearest_of_place (by rw [hlog, hunit, pow_zero]) hunits habove hbelow
  · have hfloor : u ≤ n / d := (Nat.le_div_iff_mul_le hd).mpr hge
    have hceil : n / d < 2 ^ (Nat.log2 u + 1) := by
      have hnext : u + gap u ≤ 2 ^ (Nat.log2 u + 1) := by
        obtain ⟨a, ha⟩ := hunits
        obtain ⟨b, hb⟩ : gap u ∣ 2 ^ (Nat.log2 u + 1) := pow_dvd_pow 2 (by omega)
        have hlt : gap u * a < gap u * b := by rw [← ha, ← hb]; exact hhigh
        have := Nat.mul_le_mul_left (gap u) (Nat.succ_le_of_lt (Nat.lt_of_mul_lt_mul_left hlt))
        rw [Nat.mul_succ] at this
        omega
      refine Nat.lt_of_lt_of_le (Nat.div_lt_of_lt_mul (k := u + gap u) ?_) hnext
      rw [Nat.mul_add, Nat.mul_comm d u]
      omega
    have hlog := hplace _ (by omega) (hlow.trans hfloor) hceil
    exact nearest_of_place (by rw [hlog]; rfl) hunits habove hbelow

/-- What is rounded to has the last place that rounding uses. -/
theorem gap_dvd_nearest (n d : ℕ) : gap (nearest n d) ∣ nearest n d := by
  have hle : roundHalfEven n (d * 2 ^ (Nat.log2 (n / d) - 52)) ≤ 2 ^ 53 := by
    have hlt : n / d < 2 ^ (Nat.log2 (n / d) + 1) := Nat.lt_log2_self
    have hround := roundHalfEven_le n (d * 2 ^ (Nat.log2 (n / d) - 52))
    rw [← Nat.div_div_eq_div_mul] at hround
    have hquot : n / d / 2 ^ (Nat.log2 (n / d) - 52) < 2 ^ 53 := by
      rw [Nat.div_lt_iff_lt_mul (Nat.two_pow_pos _), ← pow_add]
      exact hlt.trans_le (Nat.pow_le_pow_right (by decide) (by omega))
    omega
  rw [nearest]
  generalize roundHalfEven n (d * 2 ^ (Nat.log2 (n / d) - 52)) = r at hle
  generalize Nat.log2 (n / d) - 52 = l
  rcases Nat.eq_zero_or_pos r with rfl | hpos
  · rw [Nat.zero_mul]
    exact dvd_zero _
  · rcases Nat.lt_or_eq_of_le hle with hlt | rfl
    · have hne : r * 2 ^ l ≠ 0 := (Nat.mul_pos hpos (Nat.two_pow_pos l)).ne'
      have hlog : Nat.log2 (r * 2 ^ l) < 53 + l := by
        rw [Nat.log2_lt hne, pow_add]
        exact Nat.mul_lt_mul_of_pos_right hlt (Nat.two_pow_pos l)
      exact (pow_dvd_pow 2 (by omega)).trans (Dvd.intro_left r rfl)
    · rw [← pow_add, gap]
      refine pow_dvd_pow 2 ?_
      have hlog := (Nat.log2_lt (Nat.two_pow_pos (53 + l)).ne').mpr
        (Nat.pow_lt_pow_right (by decide) (Nat.lt_succ_self (53 + l)))
      omega

/-! ## Seventeen digits -/

theorem one_pos : 0 < one := by
  decide +kernel

/-- A number has the digits it takes. -/
theorem length_toDigits_bounds (n : ℕ) : n < 10 ^ (Nat.toDigits 10 n).length ∧
    (0 < n → 10 ^ ((Nat.toDigits 10 n).length - 1) ≤ n) := by
  have hpos := Nat.length_toDigits_pos (b := 10) (n := n)
  refine ⟨(Nat.length_toDigits_le_iff (by decide) hpos).mp le_rfl, fun hn => ?_⟩
  rcases Nat.eq_zero_or_pos ((Nat.toDigits 10 n).length - 1) with hone | hmore
  · rw [hone, pow_zero]
    exact hn
  · by_contra hlt
    have := (Nat.length_toDigits_le_iff (by decide) hmore).mpr (Nat.lt_of_not_le hlt)
    omega

variable {u : ℕ}

/-- The place of the first digit is not above the number. -/
theorem leadingExponent_le (hu : u ≠ 0) :
    (∃ k : ℕ, leadingExponent u = k ∧ one * 10 ^ k ≤ u) ∨
      ∃ k : ℕ, leadingExponent u = -(k : ℤ) ∧ one ≤ u * 10 ^ k := by
  have hone := one_pos
  rcases Nat.lt_or_ge u one with hlt | hge
  · refine .inr ⟨(Nat.toDigits 10 ((one - 1) / u)).length, ?_, ?_⟩
    · rw [leadingExponent, if_neg (Nat.not_le.mpr hlt)]
    · have hquot := (Nat.div_lt_iff_lt_mul (Nat.pos_of_ne_zero hu)).mp
        (length_toDigits_bounds ((one - 1) / u)).1
      rw [Nat.mul_comm] at hquot
      omega
  · have hquot : 0 < u / one := Nat.div_pos hge hone
    refine .inl ⟨(Nat.toDigits 10 (u / one)).length - 1, ?_, ?_⟩
    · have := Nat.length_toDigits_pos (b := 10) (n := u / one)
      rw [leadingExponent, if_pos hge]
      omega
    · rw [Nat.mul_comm]
      exact (Nat.le_div_iff_mul_le hone).mp ((length_toDigits_bounds (u / one)).2 hquot)

/-- The decimals next to a number, where no digit is behind the point. -/
theorem neighbours_whole {u count e : ℕ} (h : leadingExponent u - (count - 1) = e) :
    neighbours u count =
      if 2 * (u % (one * 10 ^ e)) ≤ one * 10 ^ e then
        [⟨(u / (one * 10 ^ e) * 10 ^ e : ℕ), 0⟩, ⟨((u / (one * 10 ^ e) + 1) * 10 ^ e : ℕ), 0⟩]
      else
        [⟨((u / (one * 10 ^ e) + 1) * 10 ^ e : ℕ), 0⟩, ⟨(u / (one * 10 ^ e) * 10 ^ e : ℕ), 0⟩] := by
  have hshift : leadingExponent u - ((count : ℤ) - 1) = Int.ofNat e := h
  unfold neighbours
  generalize one = unit
  simp only [hshift]

/-- And where some are. -/
theorem neighbours_point {u count e : ℕ} (h : leadingExponent u - (count - 1) = -((e : ℤ) + 1)) :
    neighbours u count =
      if 2 * (u * 10 ^ (e + 1) % one) ≤ one then
        [⟨(u * 10 ^ (e + 1) / one * 1 : ℕ), e + 1⟩, ⟨((u * 10 ^ (e + 1) / one + 1) * 1 : ℕ), e + 1⟩]
      else
        [⟨((u * 10 ^ (e + 1) / one + 1) * 1 : ℕ), e + 1⟩,
          ⟨(u * 10 ^ (e + 1) / one * 1 : ℕ), e + 1⟩] := by
  have hshift : leadingExponent u - ((count : ℤ) - 1) = Int.negSucc e := by
    rw [h, Int.negSucc_eq]
  unfold neighbours
  generalize one = unit
  simp only [hshift]

/-- One of them is as near as half the place of its last digit, which is as many places below the
first as there are digits. -/
theorem exists_near (hu : u ≠ 0) (digits : ℕ) :
    ∃ d ∈ neighbours u (digits + 1), ∃ m place : ℕ, d.mantissa = m ∧
      place * 10 ^ digits ≤ u * 10 ^ d.scale ∧
      2 * (m * one) ≤ 2 * (u * 10 ^ d.scale) + place ∧
      2 * (u * 10 ^ d.scale) ≤ 2 * (m * one) + place := by
  have hcount : ((digits + 1 : ℕ) : ℤ) - 1 = digits := by omega
  -- the lead is so many places from the last digit, on one side of the point or the other
  have hplace : (∃ e : ℕ, leadingExponent u - ((digits + 1 : ℕ) - 1) = e ∧
        one * 10 ^ e * 10 ^ digits ≤ u) ∨
      ∃ e : ℕ, leadingExponent u - ((digits + 1 : ℕ) - 1) = -((e : ℤ) + 1) ∧
        one * 10 ^ digits ≤ u * 10 ^ (e + 1) := by
    rw [hcount]
    obtain ⟨k, hk, hle⟩ | ⟨k, hk, hle⟩ := leadingExponent_le hu
    · rcases Nat.lt_or_ge k digits with hlt | hge
      · refine .inr ⟨digits - k - 1, by omega, ?_⟩
        have hsum : 10 ^ digits = 10 ^ k * 10 ^ (digits - k - 1 + 1) := by
          rw [← pow_add]
          exact congrArg _ (by omega)
        rw [hsum, ← Nat.mul_assoc]
        exact Nat.mul_le_mul_right _ hle
      · refine .inl ⟨k - digits, by omega, ?_⟩
        rwa [Nat.mul_assoc, ← pow_add, Nat.sub_add_cancel hge]
    · rcases Nat.eq_zero_or_pos (k + digits) with hzero | hpos
      · obtain ⟨rfl, rfl⟩ : k = 0 ∧ digits = 0 := by omega
        exact .inl ⟨0, by omega, by simpa using hle⟩
      · refine .inr ⟨k + digits - 1, by omega, ?_⟩
        rw [Nat.sub_add_cancel hpos, pow_add, ← Nat.mul_assoc]
        exact Nat.mul_le_mul_right _ hle
  have hpos := one_pos
  obtain ⟨e, hshift, hle⟩ | ⟨e, hshift, hle⟩ := hplace
  · rw [neighbours_whole hshift]
    clear hshift
    generalize one = unit at hpos hle ⊢
    have hdiv := Nat.div_add_mod u (unit * 10 ^ e)
    have hmod := Nat.mod_lt u (Nat.mul_pos hpos (show 0 < 10 ^ e from Nat.pow_pos (by decide)))
    have hmul : ∀ q, q * 10 ^ e * unit = unit * 10 ^ e * q := fun q => by ring
    split
    · refine ⟨_, List.mem_cons_self, _, unit * 10 ^ e, rfl, ?_, ?_, ?_⟩
      · simpa using hle
      · rw [hmul, pow_zero, Nat.mul_one]
        omega
      · rw [hmul, pow_zero, Nat.mul_one]
        omega
    · refine ⟨_, List.mem_cons_self, _, unit * 10 ^ e, rfl, ?_, ?_, ?_⟩
      · simpa using hle
      · rw [hmul, pow_zero, Nat.mul_one, Nat.mul_succ]
        omega
      · rw [hmul, pow_zero, Nat.mul_one, Nat.mul_succ]
        omega
  · rw [neighbours_point hshift]
    clear hshift
    generalize one = unit at hpos hle ⊢
    have hdiv := Nat.div_add_mod (u * 10 ^ (e + 1)) unit
    have hmod := Nat.mod_lt (u * 10 ^ (e + 1)) hpos
    split
    · refine ⟨_, List.mem_cons_self, _, unit, rfl, hle, ?_, ?_⟩
      · rw [Nat.mul_one, Nat.mul_comm _ unit]
        dsimp only
        omega
      · rw [Nat.mul_one, Nat.mul_comm _ unit]
        dsimp only
        omega
    · refine ⟨_, List.mem_cons_self, _, unit, rfl, hle, ?_, ?_⟩
      · rw [Nat.mul_one, Nat.mul_comm _ unit, Nat.mul_succ]
        dsimp only
        omega
      · rw [Nat.mul_one, Nat.mul_comm _ unit, Nat.mul_succ]
        dsimp only
        omega

/-! ## Reading back -/

/-- The double of a decimal without a sign. -/
theorem ofDecimal_natCast (m scale : ℕ) :
    ofDecimal ⟨m, scale⟩ = ofFraction false m (10 ^ scale) := by
  have hneg : ¬((m : ℤ) < 0) := by omega
  unfold ofDecimal
  dsimp only
  rw [Int.natAbs_natCast, decide_eq_false hneg]

theorem ofFraction_of_nearest {n d u : ℕ} (h : nearest (n * one) d = u) (hlt : u < 2 ^ 1024 * one) :
    ofFraction false n d = .finite u := by
  rw [ofFraction_eq, h, if_neg (Nat.not_le.mpr hlt)]
  rfl

/-- A double: so many units, with the last place they have. -/
structure IsDouble (u : ℕ) : Prop where
  pos : u ≠ 0
  last : gap u ∣ u
  lt : u < 2 ^ 1024 * one

/-- **Seventeen digits are enough**: one of the two decimals next to a double is read as it. -/
theorem exists_seventeen (hu : IsDouble u) : ∃ d ∈ neighbours u 17, ofDecimal d = .finite u := by
  obtain ⟨d, hmem, m, place, hm, hplace, habove, hbelow⟩ := exists_near hu.pos 16
  refine ⟨d, hmem, ?_⟩
  obtain ⟨mantissa, scale⟩ := d
  obtain rfl : mantissa = m := hm
  rw [ofDecimal_natCast]
  refine ofFraction_of_nearest ?_ hu.lt
  have hscale : 0 < 10 ^ scale := Nat.pow_pos (by decide)
  have hgap : 0 < 10 ^ scale * gap u := Nat.mul_pos hscale (gap_pos u)
  have hmul : u * 10 ^ scale ≤ 2 ^ 53 * gap u * 10 ^ scale :=
    Nat.mul_le_mul_right _ (lt_gap u).le
  have hcomm : 2 ^ 53 * gap u * 10 ^ scale = 2 ^ 53 * (10 ^ scale * gap u) := by ring
  rw [hcomm] at hmul
  have hlt : place < 10 ^ scale * gap u := by
    dsimp only at hplace
    omega
  dsimp only at habove hbelow hplace
  refine nearest_eq hscale hu.pos hu.last (by omega) (by omega) fun hlarge hpower => ?_
  -- a power of two is as many last places as it has digits
  have hexact : u = 2 ^ 52 * gap u := by
    conv_lhs => rw [hpower]
    rw [gap, ← pow_add]
    exact congrArg _ (by omega)
  have hmul' : u * 10 ^ scale = 2 ^ 52 * (10 ^ scale * gap u) := by
    conv_lhs => rw [hexact]
    ring
  omega

variable {d : Decimal}

theorem mem_candidates {u count : ℕ} (h : count < 17) (hd : d ∈ neighbours u (count + 1)) :
    d ∈ (List.range 17).flatMap fun digits => neighbours u (digits + 1) :=
  List.mem_flatMap.mpr ⟨count, List.mem_range.mpr h, hd⟩

/-- The decimals next to a number have no sign. -/
theorem exists_natCast {u count : ℕ} (h : d ∈ neighbours u count) : ∃ m : ℕ, d.mantissa = m := by
  unfold neighbours at h
  generalize one = unit at h
  dsimp only at h
  split at h
  all_goals
    split at h
    all_goals
      simp only [List.mem_cons, List.not_mem_nil, or_false] at h
      rcases h with rfl | rfl
      · exact ⟨_, rfl⟩
      · exact ⟨_, rfl⟩

/-- **The shortest decimal of a double is read as it.** -/
theorem ofDecimal_shortest (hu : IsDouble u) : ofDecimal (shortest u) = .finite u ∧
    ∃ m : ℕ, (shortest u).mantissa = m := by
  obtain ⟨d, hmem, hd⟩ := exists_seventeen hu
  have hcandidate := mem_candidates (show 16 < 17 by decide) hmem
  have hsome : (((List.range 17).flatMap fun digits => neighbours u (digits + 1)).find? fun d =>
      ofDecimal d = .finite u).isSome = true :=
    List.find?_isSome.mpr ⟨d, hcandidate, decide_eq_true hd⟩
  obtain ⟨found, hfound⟩ := Option.isSome_iff_exists.mp hsome
  have hshortest : shortest u = found := by
    rw [shortest, hfound]
    rfl
  obtain ⟨hread, -⟩ := List.find?_eq_some_iff_append.mp hfound
  rw [hshortest]
  refine ⟨of_decide_eq_true hread, ?_⟩
  obtain ⟨digits, -, hnext⟩ := List.mem_flatMap.mp (List.mem_of_find?_eq_some hfound)
  exact exists_natCast hnext

/-! ## Integers -/

/-- A double that is an integer has no digit behind the point: it is its own decimal as soon as all
its digits are there. -/
theorem scale_shortest {k : ℕ} (hu : IsDouble (k * one)) : (shortest (k * one)).scale = 0 := by
  have hk : 0 < k := Nat.pos_of_ne_zero fun h => hu.pos (by rw [h, Nat.zero_mul])
  have hlead : leadingExponent (k * one) = (Nat.toDigits 10 k).length - 1 := by
    unfold leadingExponent
    rw [if_pos (Nat.le_mul_of_pos_left _ hk), Nat.mul_div_cancel _ one_pos]
  have hlength := Nat.length_toDigits_pos (b := 10) (n := k)
  generalize hdigits : (Nat.toDigits 10 k).length = length at hlead hlength
  have hscale : ∀ count < length, ∀ d ∈ neighbours (k * one) (count + 1), d.scale = 0 := by
    intro count hlt d hd
    have hshift : leadingExponent (k * one) - ((count + 1 : ℕ) - 1) = (length - 1 - count : ℕ) := by
      rw [hlead]
      omega
    rw [neighbours_whole hshift] at hd
    generalize one = unit at hd
    split at hd
    all_goals
      simp only [List.mem_cons, List.not_mem_nil, or_false] at hd
      rcases hd with rfl | rfl
      · rfl
      · rfl
  -- with all digits the double is one of the decimals next to it
  have hexact : ∃ d ∈ neighbours (k * one) (length - 1 + 1),
      ofDecimal d = .finite (k * one : ℕ) := by
    have hshift : leadingExponent (k * one) - ((length - 1 + 1 : ℕ) - 1) = (0 : ℕ) := by
      rw [hlead]
      omega
    have hown : ofDecimal ⟨k, 0⟩ = .finite (k * one : ℕ) := by
      rw [ofDecimal_natCast]
      refine ofFraction_of_nearest ?_ hu.lt
      have hgap := gap_pos (k * one)
      exact nearest_eq (Nat.pow_pos (by decide)) hu.pos hu.last (by omega) (by omega) (by omega)
    refine ⟨⟨k, 0⟩, ?_, hown⟩
    rw [neighbours_whole hshift, pow_zero, Nat.mul_one, Nat.mul_mod_left,
      Nat.mul_div_cancel _ one_pos, Nat.mul_one, if_pos (by omega)]
    exact List.mem_cons_self
  have hfirst : ∀ found, ((List.range 17).flatMap fun digits =>
      neighbours (k * one) (digits + 1)).find? (fun d => ofDecimal d = .finite (k * one : ℕ)) =
        some found → found.scale = 0 := by
    intro found hfound
    rcases Nat.lt_or_ge length 17 with hfew | hmany
    · obtain ⟨d, hmem, hd⟩ := hexact
      have hrange : List.range 17 = List.range length ++
          (List.range (17 - length)).map (length + ·) := by
        rw [← List.range_add]
        exact congrArg _ (by omega)
      have hsome : (((List.range length).flatMap fun digits =>
          neighbours (k * one) (digits + 1)).find? fun d =>
            ofDecimal d = .finite (k * one : ℕ)).isSome = true :=
        List.find?_isSome.mpr ⟨d, List.mem_flatMap.mpr
          ⟨length - 1, List.mem_range.mpr (by omega), hmem⟩, decide_eq_true hd⟩
      obtain ⟨early, hearly⟩ := Option.isSome_iff_exists.mp hsome
      rw [hrange, List.flatMap_append, List.find?_append, hearly, Option.some_or] at hfound
      obtain rfl := Option.some.inj hfound
      obtain ⟨count, hcount, hnext⟩ := List.mem_flatMap.mp (List.mem_of_find?_eq_some hearly)
      exact hscale count (List.mem_range.mp hcount) _ hnext
    · obtain ⟨count, hcount, hnext⟩ := List.mem_flatMap.mp (List.mem_of_find?_eq_some hfound)
      exact hscale count (by have := List.mem_range.mp hcount; omega) _ hnext
  unfold shortest
  cases hfind : ((List.range 17).flatMap fun digits =>
      neighbours (k * one) (digits + 1)).find? (fun d => ofDecimal d = .finite (k * one : ℕ)) with
  | none => rfl
  | some found => exact hfirst found hfind

theorem nearest_zero (d : ℕ) : nearest 0 d = 0 := by
  simp [nearest, roundHalfEven]

variable {units : ℤ}

/-- What is read of a decimal is a double. -/
theorem isDouble_of_ofDecimal (h : ofDecimal d = .finite units) (hne : units ≠ 0) :
    IsDouble units.natAbs := by
  rw [ofDecimal, ofFraction_eq] at h
  generalize hn : nearest (d.mantissa.natAbs * one) (10 ^ d.scale) = u at h
  split at h
  · cases h
  · next hlt =>
    have habs : units.natAbs = u := by
      rw [← Double.finite.inj h]
      split
      · rw [Int.natAbs_neg, Int.natAbs_natCast]
      · exact Int.natAbs_natCast u
    rw [habs]
    exact ⟨fun hzero => hne (by omega), hn ▸ gap_dvd_nearest _ _, Nat.lt_of_not_le hlt⟩

theorem toDecimal_of_pos (hu : u ≠ 0) : toDecimal (.finite u) = shortest u := by
  have hne : (u : ℤ) ≠ 0 := Int.natCast_ne_zero.mpr hu
  have hneg : ¬((u : ℤ) < 0) := by omega
  simp only [toDecimal, if_neg hne, if_neg hneg, Int.natAbs_natCast]

theorem toDecimal_of_neg (hu : u ≠ 0) :
    toDecimal (.finite (-u)) = ⟨-(shortest u).mantissa, (shortest u).scale⟩ := by
  have hne : -(u : ℤ) ≠ 0 := by omega
  have hneg : -(u : ℤ) < 0 := by omega
  simp only [toDecimal, if_neg hne, if_pos hneg, Int.natAbs_neg, Int.natAbs_natCast]

/-- **What a double is printed as is read as it.** -/
theorem ofDecimal_toDecimal (hu : units ≠ 0 → IsDouble units.natAbs) :
    ofDecimal (toDecimal (.finite units)) = .finite units := by
  rcases lt_trichotomy units 0 with hneg | rfl | hpos
  · obtain ⟨u, rfl⟩ : ∃ u : ℕ, units = -(u : ℤ) := ⟨units.natAbs, by omega⟩
    have hdouble := hu (by omega)
    rw [Int.natAbs_neg, Int.natAbs_natCast] at hdouble
    obtain ⟨hread, m, hm⟩ := ofDecimal_shortest hdouble
    rw [toDecimal_of_neg hdouble.pos, hm]
    have hshortest : shortest u = ⟨m, (shortest u).scale⟩ := by rw [← hm]
    rw [hshortest, ofDecimal_natCast, ofFraction_eq] at hread
    generalize (shortest u).scale = scale at hread
    have hmpos : m ≠ 0 := by
      rintro rfl
      rw [Nat.zero_mul, nearest_zero, if_neg (by have := one_pos; omega)] at hread
      have := Double.finite.inj hread
      exact hdouble.pos (by simpa using this.symm)
    have hsign : -(m : ℤ) < 0 := by omega
    unfold ofDecimal
    dsimp only
    rw [Int.natAbs_neg, Int.natAbs_natCast, decide_eq_true hsign, ofFraction_eq]
    split at hread
    · cases hread
    · next hlt =>
      rw [if_neg hlt, if_pos rfl]
      have := Double.finite.inj hread
      rw [if_neg Bool.noConfusion] at this
      rw [this]
  · decide +kernel
  · obtain ⟨u, rfl⟩ : ∃ u : ℕ, units = u := ⟨units.natAbs, by omega⟩
    have hdouble := hu (by omega)
    rw [Int.natAbs_natCast] at hdouble
    rw [toDecimal_of_pos hdouble.pos]
    exact (ofDecimal_shortest hdouble).1

/-- What an integer is rounded to is an integer. -/
theorem one_dvd_nearest (n : ℕ) : one ∣ nearest (n * one) 1 := by
  rcases Nat.eq_zero_or_pos n with rfl | hn
  · rw [Nat.zero_mul, nearest_zero]
    exact dvd_zero _
  have hne : n * one ≠ 0 := (Nat.mul_pos hn one_pos).ne'
  have hlog : Nat.log2 (n * one) = Nat.log2 n + 1074 := by
    rw [Nat.log2_eq_iff hne]
    have hlow := Nat.log2_self_le hn.ne'
    have hhigh : n < 2 ^ (Nat.log2 n + 1) := Nat.lt_log2_self
    refine ⟨?_, ?_⟩
    · rw [pow_add]
      exact Nat.mul_le_mul_right _ hlow
    · rw [show Nat.log2 n + 1074 + 1 = Nat.log2 n + 1 + 1074 by omega, pow_add _ (Nat.log2 n + 1)]
      exact Nat.mul_lt_mul_of_pos_right hhigh one_pos
  rcases Nat.lt_or_ge (Nat.log2 n) 52 with hsmall | hlarge
  · -- a small integer is a double
    have hunits : gap (n * one) ∣ n * one := by
      refine Dvd.dvd.mul_left ?_ n
      rw [gap, hlog, one]
      exact pow_dvd_pow 2 (by omega)
    have hgap := gap_pos (n * one)
    have hself : nearest (n * one) 1 = n * one :=
      nearest_eq Nat.one_pos hne hunits (by omega) (by omega) (by omega)
    rw [hself]
    exact Dvd.intro_left n rfl
  · unfold nearest
    rw [Nat.div_one, hlog]
    refine Dvd.dvd.mul_left ?_ _
    rw [one]
    exact pow_dvd_pow 2 (by omega)

theorem ofInt_eq (n : ℤ) : ofInt n =
    if 2 ^ 1024 * one ≤ nearest (n.natAbs * one) 1 then .infinite (n < 0)
    else .finite (if n < 0 then -(nearest (n.natAbs * one) 1 : ℤ)
      else nearest (n.natAbs * one) 1) := by
  unfold ofInt Decimal.ofInt ofDecimal
  dsimp only
  rw [pow_zero, ofFraction_eq]
  simp only [decide_eq_true_eq]

variable {n units : ℤ}

theorem natAbs_of_ofInt (h : ofInt n = .finite units) :
    units.natAbs = nearest (n.natAbs * one) 1 := by
  rw [ofInt_eq] at h
  revert h
  generalize nearest (n.natAbs * one) 1 = x
  generalize 2 ^ 1024 * one = limit
  intro h
  split_ifs at h with hlimit hneg
  · rw [← Double.finite.inj h, Int.natAbs_neg, Int.natAbs_natCast]
  · rw [← Double.finite.inj h, Int.natAbs_natCast]

/-- The doubles that integers are read as are integers. -/
theorem one_dvd_of_ofInt (h : ofInt n = .finite units) : one ∣ units.natAbs := by
  rw [natAbs_of_ofInt h]
  exact one_dvd_nearest n.natAbs

theorem scale_toDecimal_of_dvd (hu : IsDouble units.natAbs) (hdvd : one ∣ units.natAbs) :
    (toDecimal (.finite units)).scale = 0 := by
  have hscale : (shortest units.natAbs).scale = 0 := by
    obtain ⟨k, hk⟩ := hdvd
    rw [Nat.mul_comm] at hk
    rw [hk] at hu ⊢
    exact scale_shortest hu
  have hne := hu.pos
  rcases Int.natAbs_eq units with heq | heq
  · rw [heq, toDecimal_of_pos hne, hscale]
  · rw [heq, toDecimal_of_neg hne]
    dsimp only
    rw [hscale]

/-- **A double is printed without a point exactly where an integer is read as it.** -/
theorem scale_toDecimal_iff (hu : units ≠ 0 → IsDouble units.natAbs) :
    (toDecimal (.finite units)).scale = 0 ↔ ∃ n, ofInt n = .finite units := by
  constructor
  · intro h
    have hread := ofDecimal_toDecimal hu
    refine ⟨(toDecimal (.finite units)).mantissa, ?_⟩
    rw [ofInt, Decimal.ofInt, ← h]
    exact hread
  · rintro ⟨n, hn⟩
    by_cases hzero : units = 0
    · rw [hzero]
      rfl
    exact scale_toDecimal_of_dvd (hu hzero) (one_dvd_of_ofInt hn)

/-! ## The order of integers -/

theorem nearest_of_small {n : ℕ} (h : Nat.log2 n ≤ 52) : nearest n 1 = n := by
  unfold nearest
  rw [Nat.div_one, Nat.sub_eq_zero_of_le h, pow_zero, Nat.mul_one, Nat.mul_one]
  exact roundHalfEven_eq (by omega) (by omega)

/-- A number is not rounded below its first bit. -/
theorem two_pow_le_nearest {n : ℕ} (hn : n ≠ 0) (hlarge : 52 < Nat.log2 n) :
    2 ^ Nat.log2 n ≤ nearest n 1 := by
  unfold nearest
  rw [Nat.div_one, Nat.one_mul]
  have hround := le_roundHalfEven n (2 ^ (Nat.log2 n - 52))
  have hquot : 2 ^ 52 ≤ n / 2 ^ (Nat.log2 n - 52) := by
    rw [Nat.le_div_iff_mul_le (Nat.two_pow_pos _), ← pow_add,
      show 52 + (Nat.log2 n - 52) = Nat.log2 n by omega]
    exact Nat.log2_self_le hn
  calc 2 ^ Nat.log2 n = 2 ^ 52 * 2 ^ (Nat.log2 n - 52) := by
        rw [← pow_add]
        exact congrArg _ (by omega)
    _ ≤ roundHalfEven n (2 ^ (Nat.log2 n - 52)) * 2 ^ (Nat.log2 n - 52) :=
      Nat.mul_le_mul_right _ (by omega)

/-- Rounding keeps the order: each binade is rounded into itself, its ends included. -/
theorem nearest_mono {m n : ℕ} (h : m ≤ n) : nearest m 1 ≤ nearest n 1 := by
  rcases Nat.eq_zero_or_pos m with rfl | hm
  · rw [nearest_zero]
    exact Nat.zero_le _
  have hlow := Nat.log2_self_le hm.ne'
  have hhigh : m < 2 ^ (Nat.log2 m + 1) := Nat.lt_log2_self
  have hlogs : Nat.log2 m ≤ Nat.log2 n := by
    by_contra hlt
    have hn : n < 2 ^ (Nat.log2 n + 1) := Nat.lt_log2_self
    have := Nat.pow_le_pow_right (show 0 < 2 by decide) (show Nat.log2 n + 1 ≤ Nat.log2 m by omega)
    omega
  rcases Nat.lt_or_eq_of_le hlogs with hlt | heq
  · rcases Nat.lt_or_ge 52 (Nat.log2 n) with hlarge | hsmall
    · have hup : nearest m 1 ≤ 2 ^ (Nat.log2 m + 1) := by
        rcases Nat.lt_or_ge 52 (Nat.log2 m) with hmlarge | hmsmall
        · unfold nearest
          rw [Nat.div_one, Nat.one_mul]
          have hround := roundHalfEven_le m (2 ^ (Nat.log2 m - 52))
          have hquot : m / 2 ^ (Nat.log2 m - 52) < 2 ^ 53 := by
            rw [Nat.div_lt_iff_lt_mul (Nat.two_pow_pos _), ← pow_add]
            exact hhigh.trans_le (Nat.pow_le_pow_right (by decide) (by omega))
          calc roundHalfEven m (2 ^ (Nat.log2 m - 52)) * 2 ^ (Nat.log2 m - 52)
              ≤ 2 ^ 53 * 2 ^ (Nat.log2 m - 52) := Nat.mul_le_mul_right _ (by omega)
            _ = 2 ^ (Nat.log2 m + 1) := by
              rw [← pow_add]
              exact congrArg _ (by omega)
        · rw [nearest_of_small hmsmall]
          exact hhigh.le
      have hdown := two_pow_le_nearest (show n ≠ 0 by omega) hlarge
      exact hup.trans ((Nat.pow_le_pow_right (by decide) hlt).trans hdown)
    · rw [nearest_of_small (by omega), nearest_of_small hsmall]
      exact h
  · unfold nearest
    rw [Nat.div_one, Nat.div_one, heq]
    exact Nat.mul_le_mul_right _ (roundHalfEven_mono h)

/-- **An integer below another is read as a double below the other's, or as the same.** -/
theorem cmp_ofInt {a b : ℤ} (h : a < b) :
    (ofInt a).cmp (ofInt b) = some .lt ∨ ofInt a = ofInt b := by
  have hmono : ∀ {m n : ℕ}, m ≤ n → nearest (m * one) 1 ≤ nearest (n * one) 1 := fun h =>
    nearest_mono (Nat.mul_le_mul_right _ h)
  have hless : ∀ {x y : ℤ}, x ≤ y → (Double.finite x).cmp (.finite y) = some .lt ∨
      Double.finite x = .finite y := by
    intro x y hxy
    rcases lt_or_eq_of_le hxy with hlt | rfl
    · exact .inl (congrArg some (compare_lt_iff_lt.mpr hlt))
    · exact .inr rfl
  rw [ofInt_eq, ofInt_eq]
  rcases lt_or_ge a 0 with ha | ha
  · rcases lt_or_ge b 0 with hb | hb
    · have hab := hmono (show b.natAbs ≤ a.natAbs by omega)
      generalize nearest (a.natAbs * one) 1 = x at hab
      generalize nearest (b.natAbs * one) 1 = y at hab
      generalize 2 ^ 1024 * one = limit
      rw [decide_eq_true ha, decide_eq_true hb]
      split_ifs with hx hy hy
      · exact .inr rfl
      · exact .inl rfl
      · omega
      · exact hless (by omega)
    · generalize nearest (a.natAbs * one) 1 = x
      generalize nearest (b.natAbs * one) 1 = y
      generalize 2 ^ 1024 * one = limit
      rw [decide_eq_true ha, decide_eq_false (not_lt.mpr hb)]
      have hb' := not_lt.mpr hb
      split_ifs with hx hy hy
      · exact .inl rfl
      · exact .inl rfl
      · exact .inl rfl
      · exact hless (by omega)
  · have hb : 0 < b := by omega
    have hab := hmono (show a.natAbs ≤ b.natAbs by omega)
    generalize nearest (a.natAbs * one) 1 = x at hab
    generalize nearest (b.natAbs * one) 1 = y at hab
    generalize 2 ^ 1024 * one = limit
    have ha' := not_lt.mpr ha
    have hb' := not_lt.mpr hb.le
    rw [decide_eq_false ha', decide_eq_false hb']
    split_ifs with hx hy hy
    · exact .inr rfl
    · omega
    · exact .inl rfl
    · exact hless (by omega)

theorem cmp_swap {x y : Double} (h : x.cmp y = some .lt) : y.cmp x = some .gt := by
  cases x with
  | nan => cases h
  | finite a =>
    cases y with
    | nan => cases h
    | finite b =>
      have hlt : a < b := compare_lt_iff_lt.mp (Option.some.inj h)
      exact congrArg some (compare_gt_iff_gt.mpr hlt)
    | infinite negative =>
      cases negative with
      | false => rfl
      | true => cases h
  | infinite negative =>
    cases y with
    | nan => cases h
    | finite b =>
      cases negative with
      | true => rfl
      | false => cases h
    | infinite other =>
      cases negative <;> cases other
      · cases h
      · cases h
      · rfl
      · cases h

/-- What is between two integers that are read as one double is read as it too. -/
theorem ofInt_between {a b c : ℤ} (hab : a ≤ b) (hbc : b ≤ c) (h : ofInt a = ofInt c) :
    ofInt b = ofInt a := by
  rcases lt_or_eq_of_le hab with hlt | rfl
  · rcases lt_or_eq_of_le hbc with hlt' | rfl
    · obtain hfirst | hfirst := cmp_ofInt hlt
      · obtain hsecond | hsecond := cmp_ofInt hlt'
        · have hback := cmp_swap hfirst
          rw [h] at hback
          rw [hsecond] at hback
          cases hback
        · rw [h, hsecond]
      · exact hfirst.symm
    · exact h.symm
  · rfl

/-! ## Large integers -/

variable {a b e : ℕ}

theorem le_log2_mul (h : 2 ^ a ≤ b) (hne : b * 2 ^ e ≠ 0) : a + e ≤ Nat.log2 (b * 2 ^ e) := by
  rw [Nat.le_log2 hne, pow_add]
  exact Nat.mul_le_mul_right _ h

theorem le_gap_mul (h : 2 ^ (52 + a) ≤ b) (hne : b * 2 ^ e ≠ 0) :
    2 ^ a * 2 ^ e ≤ gap (b * 2 ^ e) := by
  have hlog := le_log2_mul h hne
  rw [gap, ← pow_add]
  exact Nat.pow_le_pow_right (by decide) (by omega)

theorem le_nearest_mul (h : 2 ^ a ≤ b) (ha : 52 < a) (hne : b * 2 ^ e ≠ 0) :
    2 ^ a * 2 ^ e ≤ nearest (b * 2 ^ e) 1 := by
  have hlog := le_log2_mul h hne
  calc 2 ^ a * 2 ^ e = 2 ^ (a + e) := (pow_add _ _ _).symm
    _ ≤ 2 ^ Nat.log2 (b * 2 ^ e) := Nat.pow_le_pow_right (by decide) hlog
    _ ≤ nearest (b * 2 ^ e) 1 := two_pow_le_nearest hne (by omega)

/-- From 2 to the power of 63 on, the integer above a double is read as it. -/
theorem nearest_next {j : ℕ} (hlarge : 2 ^ 63 ≤ j) (hdouble : IsDouble (j * one)) :
    nearest (j * one) 1 = j * one ∧ nearest ((j + 1) * one) 1 = j * one := by
  have hgap : 2 ^ 2 * one ≤ gap (j * one) := by
    have hlow : 2 ^ (52 + 2) ≤ j := (Nat.pow_le_pow_right (by decide) (by decide)).trans hlarge
    have hne := hdouble.pos
    unfold one at hne ⊢
    exact le_gap_mul (a := 2) (e := 1074) hlow hne
  have hpos := one_pos
  have hsucc : (j + 1) * one = j * one + one := Nat.succ_mul j one
  have hlast := hdouble.last
  have hne := hdouble.pos
  rw [hsucc]
  generalize j * one = u at hgap hlast hne ⊢
  generalize one = unit at hpos hgap ⊢
  constructor
  · exact nearest_eq Nat.one_pos hne hlast (by omega) (by omega) (by omega)
  · exact nearest_eq Nat.one_pos hne hlast (by omega) (by omega) (by omega)

theorem ofInt_of_nearest {n k units : ℤ} (h : ofInt n = .finite units) (hsign : k < 0 ↔ n < 0)
    (hk : nearest (k.natAbs * one) 1 = nearest (n.natAbs * one) 1) : ofInt k = .finite units := by
  rw [ofInt_eq] at h ⊢
  rw [hk]
  revert h
  generalize nearest (n.natAbs * one) 1 = x
  generalize 2 ^ 1024 * one = limit
  intro h
  simp only [hsign]
  exact h

/-- **A double that is so large is what two integers are read as.** -/
theorem exists_ne_ofInt (h : ofInt n = .finite units) (hlarge : 2 ^ 63 ≤ n.natAbs) :
    ∃ k, k ≠ n ∧ ofInt k = .finite units := by
  have hunits := natAbs_of_ofInt h
  have hn : 0 < n.natAbs := (Nat.two_pow_pos 63).trans_le hlarge
  have hne : n.natAbs * one ≠ 0 := (Nat.mul_pos hn one_pos).ne'
  have hbound : 2 ^ 63 * one ≤ units.natAbs := by
    rw [hunits]
    unfold one at hne ⊢
    exact le_nearest_mul (e := 1074) hlarge (by decide) hne
  obtain ⟨j, hj⟩ := one_dvd_of_ofInt h
  rw [Nat.mul_comm] at hj
  rw [hj] at hbound
  have hlargej : 2 ^ 63 ≤ j := Nat.le_of_mul_le_mul_right hbound one_pos
  have hpos : 0 < j := (Nat.two_pow_pos 63).trans_le hlargej
  have hdouble : IsDouble (j * one) := by
    rw [← hj]
    refine isDouble_of_ofDecimal h fun hzero => ?_
    rw [hzero] at hj
    exact (Nat.mul_pos hpos one_pos).ne hj
  obtain ⟨hself, hnext⟩ := nearest_next hlargej hdouble
  have hread : j * one = nearest (n.natAbs * one) 1 := hj.symm.trans hunits
  -- one of the two is another integer
  obtain ⟨k, hkn, hkpos, hk⟩ : ∃ k : ℕ, k ≠ n.natAbs ∧ 0 < k ∧
      nearest (k * one) 1 = nearest (n.natAbs * one) 1 := by
    by_cases hjn : j = n.natAbs
    · exact ⟨j + 1, fun h => Nat.succ_ne_self j (h.trans hjn.symm), Nat.succ_pos j,
        hnext.trans hread⟩
    · exact ⟨j, hjn, hpos, hself.trans hread⟩
  rcases Int.lt_or_le n 0 with hneg | hnonneg
  · refine ⟨-k, fun heq => hkn ?_, ofInt_of_nearest h ⟨fun _ => hneg, fun _ => ?_⟩ ?_⟩
    · rw [← heq, Int.natAbs_neg, Int.natAbs_natCast]
    · exact Int.neg_neg_of_pos (Int.natCast_pos.mpr hkpos)
    · rw [Int.natAbs_neg, Int.natAbs_natCast]
      exact hk
  · refine ⟨k, fun heq => hkn ?_, ofInt_of_nearest h ⟨fun hlt => ?_, fun hlt => ?_⟩ ?_⟩
    · rw [← heq, Int.natAbs_natCast]
    · exact absurd hlt (Int.not_lt.mpr (Int.natCast_nonneg k))
    · exact absurd hlt (Int.not_lt.mpr hnonneg)
    · rw [Int.natAbs_natCast]
      exact hk

end Double
