import GrpcQuic.Client.CallSchedule

/-! # The backoff over the whole range of attempts

The attempt index is cast to a signed exponent, which is negative from `2 ^ 31` on. On
either side of that index the backoff grows with the attempt; across it the power
becomes a reciprocal.
-/
namespace GrpcQuic.Retry

def Duration.ceilMillis (d : Duration) : ℕ := (d + 999999) / 1000000

def RetryPolicy.capped (policy : RetryPolicy) (e : ℤ) : Duration :=
  min (Duration.fromMillis (asU64 (policy.initialBackoff.asMillis * policy.backoffMultiplier ^ e)))
    policy.maxBackoff

/-- The backoffs of the first `n` attempt indices do not fall and respect the cap. -/
def RetryPolicy.MonotoneBelow (policy : RetryPolicy) (n : ℕ) : Prop :=
  ∀ a b, a ≤ b → b < n →
    policy.backoffFor a ≤ policy.backoffFor b ∧ policy.backoffFor b ≤ policy.maxBackoff

/-- The multiplier has no effect, or even the reciprocal of its largest power leaves a
backoff at the cap or at the end of the 64 bits. -/
def RetryPolicy.Level (policy : RetryPolicy) (e : ℤ) : Prop :=
  policy.backoffMultiplier = 1 ∨ policy.initialBackoff.asMillis = 0 ∨
    ((min policy.maxBackoff.ceilMillis (2 ^ 64 - 1) : ℕ) : ℚ) ≤
      policy.initialBackoff.asMillis * policy.backoffMultiplier ^ e

variable {policy : RetryPolicy}

theorem backoffFor_eq_capped (policy : RetryPolicy) (attempt : ℕ) :
    policy.backoffFor attempt = policy.capped (asI32 attempt) := rfl

theorem asI32_of_lt {n : ℕ} (h : n < 2 ^ 31) : asI32 n = n := by
  apply Int.bmod_eq_of_le_mul_two
  · push_cast
    omega
  · push_cast
    omega

theorem asI32_of_le {n : ℕ} (h : 2 ^ 31 ≤ n) (hn : n < 2 ^ 32) : asI32 n = n - 2 ^ 32 := by
  have hwrap : asI32 n = Int.bmod (n - 2 ^ 32) (2 ^ 32) := by
    exact (Int.sub_bmod_right n (2 ^ 32)).symm
  rw [hwrap]
  apply Int.bmod_eq_of_le_mul_two
  · push_cast
    omega
  · push_cast
    omega

theorem asU64_mono {x y : ℚ} (h : x ≤ y) : asU64 x ≤ asU64 y := by
  have hfloor := Int.toNat_le_toNat (Int.floor_le_floor h)
  unfold asU64
  omega

theorem fromMillis_mono {m n : ℕ} (h : m ≤ n) : Duration.fromMillis m ≤ Duration.fromMillis n :=
  Nat.mul_le_mul_right 1000000 h

theorem fromMillis_lt {m n : ℕ} (h : m < n) : Duration.fromMillis m < Duration.fromMillis n :=
  Nat.mul_lt_mul_of_pos_right h (by decide)

theorem fromMillis_lt_iff {n : ℕ} {d : Duration} : Duration.fromMillis n < d ↔ n < d.ceilMillis := by
  unfold Duration.fromMillis Duration.ceilMillis
  change n * 1000000 < d ↔ n < (d + 999999) / 1000000
  omega

theorem capped_mono (hm : 1 ≤ policy.backoffMultiplier) {e f : ℤ} (h : e ≤ f) :
    policy.capped e ≤ policy.capped f := by
  have hpow := zpow_le_zpow_right₀ hm h
  have hmillis : (policy.initialBackoff.asMillis : ℚ) * policy.backoffMultiplier ^ e ≤
      policy.initialBackoff.asMillis * policy.backoffMultiplier ^ f :=
    mul_le_mul_of_nonneg_left hpow (Nat.cast_nonneg _)
  exact min_le_min_right _ (fromMillis_mono (asU64_mono hmillis))

theorem asU64_eq (x : ℚ) : asU64 x = min ⌊x⌋₊ (2 ^ 64 - 1) := by
  unfold asU64
  rw [Int.floor_toNat]

theorem millis_nonneg (hm : 1 ≤ policy.backoffMultiplier) (e : ℤ) :
    0 ≤ (policy.initialBackoff.asMillis : ℚ) * policy.backoffMultiplier ^ e :=
  mul_nonneg (Nat.cast_nonneg _) (zpow_nonneg (zero_le_one.trans hm) e)

/-- Unless the policy is level, a negative exponent shrinks the backoff below the cap. -/
theorem capped_lt_of_not_level (hm : 1 ≤ policy.backoffMultiplier) {e f : ℤ} (he : e < 0) (hf : 0 ≤ f)
    (hno : ¬ policy.Level e) : policy.capped e < policy.capped f := by
  simp only [RetryPolicy.Level,not_or,not_le] at hno
  obtain ⟨hne,hzero,hsmall⟩ := hno
  have hgt : 1 < policy.backoffMultiplier := lt_of_le_of_ne hm (Ne.symm hne)
  have hmillis : (0 : ℚ) < policy.initialBackoff.asMillis := by
    exact_mod_cast Nat.pos_of_ne_zero hzero
  have hbelow : (policy.initialBackoff.asMillis : ℚ) * policy.backoffMultiplier ^ e <
      policy.initialBackoff.asMillis := mul_lt_of_lt_one_right hmillis (zpow_lt_one_of_neg₀ hgt he)
  have habove : (policy.initialBackoff.asMillis : ℚ) ≤
      policy.initialBackoff.asMillis * policy.backoffMultiplier ^ f :=
    le_mul_of_one_le_right hmillis.le (one_le_zpow₀ hm hf)
  have hlow := (Nat.floor_lt (millis_nonneg hm e)).mpr hsmall
  have hmid := (Nat.floor_lt (millis_nonneg hm e)).mpr hbelow
  have hhigh := Nat.le_floor habove
  have hlt : asU64 (policy.initialBackoff.asMillis * policy.backoffMultiplier ^ e) <
      asU64 (policy.initialBackoff.asMillis * policy.backoffMultiplier ^ f) := by
    rw [asU64_eq,asU64_eq]
    omega
  have hfits : Duration.fromMillis (asU64 (policy.initialBackoff.asMillis *
      policy.backoffMultiplier ^ e)) < policy.maxBackoff := by
    rw [fromMillis_lt_iff,asU64_eq]
    omega
  exact (min_le_left _ _).trans_lt (lt_min (fromMillis_lt hlt) hfits)

theorem capped_le_of_level {e : ℤ} (h : policy.Level e) (f : ℤ) : policy.capped f ≤ policy.capped e := by
  rcases h with hone | hzero | hlarge
  · unfold RetryPolicy.capped
    rw [hone,one_zpow,one_zpow]
  · unfold RetryPolicy.capped
    rw [hzero,Nat.cast_zero,zero_mul,zero_mul]
  · have hfloor := Nat.le_floor hlarge
    by_cases hcap : policy.maxBackoff.ceilMillis ≤ 2 ^ 64 - 1
    · have hfull : ¬ Duration.fromMillis (asU64 (policy.initialBackoff.asMillis *
          policy.backoffMultiplier ^ e)) < policy.maxBackoff := by
        rw [fromMillis_lt_iff,asU64_eq]
        omega
      exact (min_le_right _ _).trans (le_min (not_lt.mp hfull) le_rfl)
    · have hsat : asU64 (policy.initialBackoff.asMillis * policy.backoffMultiplier ^ f) ≤
          asU64 (policy.initialBackoff.asMillis * policy.backoffMultiplier ^ e) := by
        rw [asU64_eq,asU64_eq]
        omega
      exact min_le_min_right _ (fromMillis_mono hsat)

/-- Where the exponent turns negative the backoff does not fall exactly when the policy is level. -/
theorem capped_le_iff (hm : 1 ≤ policy.backoffMultiplier) {e f : ℤ} (he : e < 0) (hf : 0 ≤ f) :
    policy.capped f ≤ policy.capped e ↔ policy.Level e := by
  refine ⟨fun hle => ?_,fun h => capped_le_of_level h f⟩
  by_contra hno
  exact absurd hle (not_le.mpr (capped_lt_of_not_level hm he hf hno))

theorem monotoneBelow (hm : 1 ≤ policy.backoffMultiplier) {n : ℕ} (hn : n ≤ 2 ^ 32)
    (h : n ≤ 2 ^ 31 ∨ policy.Level (-2 ^ 31)) : policy.MonotoneBelow n := by
  intro a b hab hb
  refine ⟨?_,policy.backoffFor_le_maxBackoff b⟩
  rw [backoffFor_eq_capped,backoffFor_eq_capped]
  by_cases hlow : b < 2 ^ 31
  · rw [asI32_of_lt hlow,asI32_of_lt (by omega)]
    exact capped_mono hm (by omega)
  · rw [asI32_of_le (not_lt.mp hlow) (by omega)]
    by_cases hhigh : a < 2 ^ 31
    · have hlevel : policy.Level (-2 ^ 31) := h.resolve_left (by omega)
      rw [asI32_of_lt hhigh]
      calc policy.capped a ≤ policy.capped (-2 ^ 31) :=
            capped_le_of_level hlevel a
        _ ≤ policy.capped (b - 2 ^ 32) := capped_mono hm (by omega)
    · rw [asI32_of_le (not_lt.mp hhigh) (by omega)]
      exact capped_mono hm (by omega)

/-- The backoff keeps growing up to its cap over every range of attempts that stays below
`2 ^ 31`, and past that index only for a level policy. -/
theorem backoff_monotone_iff (hm : 1 ≤ policy.backoffMultiplier) {n : ℕ} (hn : n ≤ 2 ^ 32) :
    policy.MonotoneBelow n ↔ n ≤ 2 ^ 31 ∨ policy.Level (-2 ^ 31) := by
  refine ⟨fun hmono => or_iff_not_imp_left.mpr fun hlarge => ?_,monotoneBelow hm hn⟩
  have hcross := (hmono (2 ^ 31 - 1) (2 ^ 31) (by omega) (by omega)).1
  rw [backoffFor_eq_capped,backoffFor_eq_capped,asI32_of_lt (by omega),
    asI32_of_le le_rfl (by omega)] at hcross
  exact (capped_le_iff hm (by norm_num) (by norm_num)).mp hcross

theorem one_le_default : 1 ≤ RetryPolicy.default.backoffMultiplier := by
  norm_num [RetryPolicy.default]

theorem backoff_monotone_iff_default : RetryPolicy.default.MonotoneBelow 5 :=
  (backoff_monotone_iff one_le_default (by norm_num)).mpr (.inl (by norm_num))

def endless : RetryPolicy := { RetryPolicy.default with maxAttempts := 2 ^ 32 - 1 }

theorem endless_not_level : ¬ endless.Level (-2 ^ 31) := by
  have hpow : (2 : ℚ) ^ (-2 ^ 31 : ℤ) ≤ 1 := zpow_le_one_of_nonpos₀ one_le_default (by norm_num)
  rintro (hone | hzero | hlarge)
  · norm_num [endless,RetryPolicy.default] at hone
  · norm_num [endless,RetryPolicy.default,Duration.fromMillis,Duration.asMillis] at hzero
  · change ((min (Duration.ceilMillis (Duration.fromMillis 30000)) (2 ^ 64 - 1) : ℕ) : ℚ) ≤
      (Duration.asMillis (Duration.fromMillis 100) : ℚ) * 2 ^ (-2 ^ 31 : ℤ) at hlarge
    generalize (2 : ℚ) ^ (-2 ^ 31 : ℤ) = q at hpow hlarge
    norm_num [Duration.ceilMillis,Duration.fromMillis,Duration.asMillis] at hlarge
    linarith

theorem backoff_falls : ¬ ∀ (policy : RetryPolicy) (a b : ℕ), 1 ≤ policy.backoffMultiplier →
    policy.maxAttempts < 2 ^ 32 → a ≤ b → b < policy.maxAttempts →
      policy.backoffFor a ≤ policy.backoffFor b ∧ policy.backoffFor b ≤ policy.maxBackoff := by
  intro h
  have hm : 1 ≤ endless.backoffMultiplier := one_le_default
  have hcross := (h endless (2 ^ 31 - 1) (2 ^ 31) hm (by norm_num [endless]) (by norm_num)
    (by norm_num [endless])).1
  rw [backoffFor_eq_capped,backoffFor_eq_capped,asI32_of_lt (by norm_num),
    asI32_of_le le_rfl (by norm_num)] at hcross
  exact endless_not_level ((capped_le_iff hm (by norm_num) (by norm_num)).mp hcross)

end GrpcQuic.Retry

namespace GrpcQuic.Call
open Retry Transition

/-- The sleeps of a call that came to its result never shorten, as long as the attempts
stay below `2 ^ 31` or the policy is level. -/
theorem sleeps_monotone {cfg : Config} {s : State} {es : List Event} {res : Except ClientError ResponseHead}
    (h : exec (step cfg) State.init es = some s) (hres : s.phase = .done res)
    (hm : 1 ≤ cfg.retry.backoffMultiplier) (hn : cfg.retry.maxAttempts < 2 ^ 32)
    (hrange : cfg.retry.maxAttempts ≤ 2 ^ 31 ∨ cfg.retry.Level (-2 ^ 31)) :
    (sleeps s.log).Pairwise (· ≤ ·) ∧ ∀ d ∈ sleeps s.log, d ≤ cfg.retry.maxBackoff := by
  have hinv := exec_scheduleInv h
  unfold ScheduleInv at hinv
  rw [hres] at hinv
  obtain ⟨os,hlog,hos,-⟩ := hinv.complete
  have hbound := hos.bounded
  rw [hlog,sleeps_callActions]
  constructor
  · rw [List.pairwise_map]
    refine List.pairwise_lt_range.imp_of_mem fun {a b} _ hb hab => ?_
    have hb' := List.mem_range.mp hb
    exact (monotoneBelow hm hn.le hrange a b hab.le (by omega)).1
  · intro d hd
    obtain ⟨i,-,rfl⟩ := List.mem_map.mp hd
    exact cfg.retry.backoffFor_le_maxBackoff i

end GrpcQuic.Call
