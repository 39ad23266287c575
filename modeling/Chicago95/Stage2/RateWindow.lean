/-
# Chicago95.Stage2.RateWindow — how many calls a token bucket grants in a window of time.

Each call of `rate_allow` rounds its refill down and cuts the tokens at the burst, and the refill wraps at 64 bits; none
of these grants more. The tokens left and what is refilled from the last call on bound what is granted from then on
(`granted_from`), and the first call in a window starts with a burst at most (`granted_window`).
-/
import Chicago95.Stage2.PacketFilter

namespace Chicago95.Stage2.PacketFilter

/-! ## Sequences of calls -/

/-- The calls of `rate_allow` on a bucket, each with what it answers. -/
def rateCalls (b : RateBucket) : List UInt64 → List (UInt64 × Bool)
  | [] => []
  | now :: rest => (now, (rateAllow b now).2) :: rateCalls (rateAllow b now).1 rest

/-- The calls granted at times from `s` to `t`. -/
def grantedIn (s t : UInt64) (calls : List (UInt64 × Bool)) : Nat :=
  calls.countP fun c => c.2 && decide (s ≤ c.1) && decide (c.1 ≤ t)

/-! ## One call -/

theorem rateRefill_le_burst (b : RateBucket) (now : UInt64) : (rateRefill b now).tokens.toNat ≤ b.burst.toNat := by
  unfold rateRefill
  dsimp only
  split
  · exact Nat.le_of_eq (UInt32.toNat_toUInt64 _)
  · rename_i hle
    rw [UInt64.lt_iff_toNat_lt, UInt32.toNat_toUInt64] at hle
    exact Nat.not_lt.mp hle

theorem rateRefill_le_add {b : RateBucket} {now : UInt64} (hle : b.lastRefill ≤ now) : (rateRefill b now).tokens.toNat ≤
      b.tokens.toNat + b.rate.toNat * (now.toNat - b.lastRefill.toNat) / 1000 := by
  have hproduct : ((now - b.lastRefill) * b.rate.toUInt64).toNat ≤
      b.rate.toNat * (now.toNat - b.lastRefill.toNat) := by
    rw [UInt64.toNat_mul, UInt64.toNat_sub_of_le _ _ hle, UInt32.toNat_toUInt64, Nat.mul_comm]
    exact Nat.mod_le _ _
  have hrefill : ((now - b.lastRefill) * b.rate.toUInt64 / rateWindowMs).toNat ≤
      b.rate.toNat * (now.toNat - b.lastRefill.toNat) / 1000 := by
    rw [UInt64.toNat_div]
    exact Nat.div_le_div_right hproduct
  have hsum : (b.tokens + (now - b.lastRefill) * b.rate.toUInt64 / rateWindowMs).toNat ≤
      b.tokens.toNat + b.rate.toNat * (now.toNat - b.lastRefill.toNat) / 1000 := by
    rw [UInt64.toNat_add]
    exact Nat.le_trans (Nat.mod_le _ _) (Nat.add_le_add_left hrefill _)
  unfold rateRefill
  dsimp only
  split
  · rename_i hlt
    exact Nat.le_trans (Nat.le_of_lt (UInt64.lt_iff_toNat_lt.mp hlt)) hsum
  · exact hsum

/-- The bucket as `rate_allow` refills it: a new one has a burst. -/
def RateBucket.started (b : RateBucket) (now : UInt64) : RateBucket :=
  if b.lastRefill = 0 then { b with lastRefill := now, tokens := b.burst.toUInt64 } else b

theorem RateBucket.started_rate (b : RateBucket) (now : UInt64) : (b.started now).rate = b.rate := by
  unfold RateBucket.started
  split <;> rfl

theorem RateBucket.started_burst (b : RateBucket) (now : UInt64) : (b.started now).burst = b.burst := by
  unfold RateBucket.started
  split <;> rfl

theorem rateAllow_tokens (b : RateBucket) (now : UInt64) :
    (rateAllow b now).1.tokens.toNat + (rateAllow b now).2.toNat = (rateRefill (b.started now) now).tokens.toNat := by
  change (if 0 < (rateRefill (b.started now) now).tokens
    then ({ rateRefill (b.started now) now with tokens := (rateRefill (b.started now) now).tokens - 1 }, true)
    else (rateRefill (b.started now) now, false)).1.tokens.toNat +
      (if 0 < (rateRefill (b.started now) now).tokens
    then ({ rateRefill (b.started now) now with tokens := (rateRefill (b.started now) now).tokens - 1 }, true)
    else (rateRefill (b.started now) now, false)).2.toNat = _
  split
  · rename_i hpos
    have hone : (1 : UInt64) ≤ (rateRefill (b.started now) now).tokens := by
      rw [UInt64.lt_iff_toNat_lt] at hpos
      rw [UInt64.le_iff_toNat_le]
      exact hpos
    dsimp only
    rw [UInt64.toNat_sub_of_le _ _ hone]
    rw [UInt64.le_iff_toNat_le] at hone
    exact Nat.sub_add_cancel hone
  · exact Nat.add_zero _

theorem rateAllow_kept (b : RateBucket) (now : UInt64) :
    (rateAllow b now).1.rate = b.rate ∧ (rateAllow b now).1.burst = b.burst ∧ (rateAllow b now).1.lastRefill = now := by
  rw [← RateBucket.started_rate b now, ← RateBucket.started_burst b now]
  change (if 0 < (rateRefill (b.started now) now).tokens then _ else _ : RateBucket × Bool).1.rate = _ ∧
    (if 0 < (rateRefill (b.started now) now).tokens then _ else _ : RateBucket × Bool).1.burst = _ ∧
    (if 0 < (rateRefill (b.started now) now).tokens then _ else _ : RateBucket × Bool).1.lastRefill = _
  split
  · exact ⟨rfl, rfl, rfl⟩
  · exact ⟨rfl, rfl, rfl⟩

/-! ## Windows -/

theorem rateCalls_times (times : List UInt64) (b : RateBucket) : (rateCalls b times).map Prod.fst = times := by
  induction times generalizing b with
  | nil => rfl
  | cons now rest ih => rw [rateCalls, List.map_cons, ih]

theorem grantedIn_cons_le (s t : UInt64) (c : UInt64 × Bool) (cs : List (UInt64 × Bool)) :
    grantedIn s t (c :: cs) ≤ grantedIn s t cs + c.2.toNat := by
  unfold grantedIn
  rw [List.countP_cons]
  cases c.2 with
  | false => exact Nat.le_refl _
  | true =>
    refine Nat.add_le_add_left ?_ _
    split
    · exact Nat.le_refl 1
    · exact Nat.zero_le 1

theorem grantedIn_cons_before {s t : UInt64} {c : UInt64 × Bool} (h : c.1 < s) (cs : List (UInt64 × Bool)) :
    grantedIn s t (c :: cs) = grantedIn s t cs := by
  unfold grantedIn
  refine List.countP_cons_of_neg ?_
  simp only [UInt64.not_le.mpr h, decide_false, Bool.and_false, Bool.false_and, Bool.false_eq_true,
    not_false_eq_true]

theorem grantedIn_after {s t : UInt64} {times : List UInt64} (b : RateBucket) (h : ∀ u ∈ times, t < u) :
    grantedIn s t (rateCalls b times) = 0 := by
  refine List.countP_eq_zero.mpr fun c hc => ?_
  have hmem : c.1 ∈ times := by
    rw [← rateCalls_times times b]
    exact List.mem_map_of_mem hc
  have hlate := UInt64.not_le.mpr (h c.1 hmem)
  simp only [hlate, decide_false, Bool.and_false, Bool.false_eq_true, not_false_eq_true]

theorem granted_from (s t : UInt64) :
    ∀ (times : List UInt64) (b : RateBucket), b.lastRefill ≠ 0 → (b.lastRefill :: times).Pairwise (· ≤ ·) →
      (∀ u ∈ times, 0 < u) → grantedIn s t (rateCalls b times) ≤
        b.tokens.toNat + b.rate.toNat * (t.toNat - b.lastRefill.toNat) / 1000 := by
  intro times
  induction times with
  | nil => exact fun _ _ _ _ => Nat.zero_le _
  | cons now rest ih =>
    intro b hstarted hsorted hpos
    obtain ⟨hfirst, hrest⟩ := List.pairwise_cons.mp hsorted
    by_cases hlate : t < now
    · -- the window is over
      rw [grantedIn_after b]
      · exact Nat.zero_le _
      · intro u hu
        rcases List.mem_cons.mp hu with rfl | hmem
        · exact hlate
        · exact UInt64.lt_of_lt_of_le hlate ((List.pairwise_cons.mp hrest).1 u hmem)
    obtain ⟨hrate, -, hlast⟩ := rateAllow_kept b now
    have hnow : now ≠ 0 := (UInt64.pos_iff_ne_zero.mp (hpos now List.mem_cons_self))
    have hnext := ih (rateAllow b now).1 (by rw [hlast]; exact hnow) (by rw [hlast]; exact hrest)
      fun u hu => hpos u (List.mem_cons_of_mem _ hu)
    have htokens := rateAllow_tokens b now
    have hrefill := rateRefill_le_add (hfirst now List.mem_cons_self)
    have hsame : b.started now = b := if_neg hstarted
    rw [hsame] at htokens
    rw [hrate, hlast] at hnext
    have hcount := grantedIn_cons_le s t (now, (rateAllow b now).2) (rateCalls (rateAllow b now).1 rest)
    dsimp only at hcount
    rw [rateCalls]
    have hbefore := UInt64.le_iff_toNat_le.mp (hfirst now List.mem_cons_self)
    have hend := UInt64.le_iff_toNat_le.mp (UInt64.not_lt.mp hlate)
    -- the floors of two spans together are at most the floor of both
    have hfloors : b.rate.toNat * (now.toNat - b.lastRefill.toNat) / 1000 +
        b.rate.toNat * (t.toNat - now.toNat) / 1000 ≤
        b.rate.toNat * (t.toNat - b.lastRefill.toNat) / 1000 := by
      have hspans : now.toNat - b.lastRefill.toNat + (t.toNat - now.toNat) = t.toNat - b.lastRefill.toNat := by
        omega
      rw [← hspans, Nat.mul_add]
      omega
    omega

theorem granted_window (s t : UInt64) :
    ∀ (times : List UInt64) (b : RateBucket), times.Pairwise (· ≤ ·) → (∀ u ∈ times, 0 < u) →
      grantedIn s t (rateCalls b times) ≤ b.burst.toNat + b.rate.toNat * (t.toNat - s.toNat) / 1000 := by
  intro times
  induction times with
  | nil => exact fun _ _ _ => Nat.zero_le _
  | cons now rest ih =>
    intro b hsorted hpos
    obtain ⟨hfirst, hrest⟩ := List.pairwise_cons.mp hsorted
    obtain ⟨hrate, hburst, hlast⟩ := rateAllow_kept b now
    have hposRest : ∀ u ∈ rest, 0 < u := fun u hu => hpos u (List.mem_cons_of_mem _ hu)
    by_cases hearly : now < s
    · -- before the window
      have hnext := ih (rateAllow b now).1 hrest hposRest
      rw [hrate, hburst] at hnext
      rw [rateCalls, grantedIn_cons_before hearly]
      exact hnext
    · -- the first call in it
      have hnow : now ≠ 0 := (UInt64.pos_iff_ne_zero.mp (hpos now List.mem_cons_self))
      have hnext := granted_from s t rest (rateAllow b now).1 (by rw [hlast]; exact hnow)
        (by rw [hlast]; exact hsorted) hposRest
      have htokens := rateAllow_tokens b now
      have hfull := rateRefill_le_burst (b.started now) now
      rw [RateBucket.started_burst] at hfull
      rw [hrate, hlast] at hnext
      have hcount := grantedIn_cons_le s t (now, (rateAllow b now).2) (rateCalls (rateAllow b now).1 rest)
      dsimp only at hcount
      rw [rateCalls]
      have hstart := UInt64.le_iff_toNat_le.mp (UInt64.not_lt.mp hearly)
      have hspan : b.rate.toNat * (t.toNat - now.toNat) / 1000 ≤ b.rate.toNat * (t.toNat - s.toNat) / 1000 :=
        Nat.div_le_div_right (Nat.mul_le_mul_left _ (by omega))
      omega

/-- **The rate limiter**: between two changes of its rule a bucket grants in a window at most a burst and what has come
in it, and a refill never leaves more than a burst. -/
theorem rateLimiter_bound (b : RateBucket) {times : List UInt64} (hsorted : times.Pairwise (· ≤ ·))
    (hpos : ∀ u ∈ times, 0 < u) : (∀ s t : UInt64, grantedIn s t (rateCalls b times) ≤
        b.burst.toNat + b.rate.toNat * (t.toNat - s.toNat) / 1000) ∧
      ∀ (c : RateBucket) (now : UInt64), (rateRefill c now).tokens.toNat ≤ c.burst.toNat :=
  ⟨fun s t => granted_window s t times b hsorted hpos, rateRefill_le_burst⟩

/-- A burst of two, and two more at one in a thousand ticks. -/
theorem burst_and_two :
    grantedIn 10 2010 (rateCalls { tokens := 0, lastRefill := 0, rate := 1, burst := 2 } [10, 10, 10, 1010, 2010]) ≤
      2 + 1 * (2010 - 10) / 1000 :=
  (rateLimiter_bound { tokens := 0, lastRefill := 0, rate := 1, burst := 2 } (by decide) (by simp)).1 10 2010

end Chicago95.Stage2.PacketFilter
