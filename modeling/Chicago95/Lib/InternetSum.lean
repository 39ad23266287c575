/-
# Chicago95.Lib.InternetSum — the ones' complement checksum of Internet headers, and integers in bytes.

`checksum` is the complement of the folded sum of big-endian words. Folding is reduction modulo 65535 with 65535 in the
place of 0 (`fold_eq`), so words to which their own checksum has been added sum to zero (`checksum_cancels`).
-/
import Chicago95.Lib.Loop
import Mathlib.Data.UInt

namespace Chicago95.Lib.InternetSum

open Chicago95.Lib.Loop

abbrev Memory := Nat → UInt8

/-! ## Integers in bytes -/

/-- `(p[0] << 8) | p[1]`. -/
def be16 (p : Memory) (a : Nat) : Nat := (p a).toNat * 256 + (p (a + 1)).toNat

/-- A byte stored. -/
def put (p : Memory) (a : Nat) (v : UInt8) : Memory := fun k => if k = a then v else p k

/-- `p[0] = (v >> 8) & 0xFF; p[1] = v & 0xFF`. -/
def putBe16 (p : Memory) (a v : Nat) : Memory := put (put p a (UInt8.ofNat (v / 256))) (a + 1) (UInt8.ofNat v)

/-- `*(uint32_t *)p`, the low byte first. -/
def load32 (p : Memory) (a : Nat) : UInt32 :=
  UInt32.ofNat ((p a).toNat + (p (a + 1)).toNat * 2 ^ 8 + (p (a + 2)).toNat * 2 ^ 16 + (p (a + 3)).toNat * 2 ^ 24)

/-- `*(uint32_t *)p = v`. -/
def store32 (p : Memory) (a : Nat) (v : UInt32) : Memory := fun k =>
  if a ≤ k ∧ k < a + 4 then UInt8.ofNat (v.toNat / 2 ^ (8 * (k - a))) else p k

/-- `memcpy(dst + off, src, n)`. -/
def memcpy (dst : Memory) (off : Nat) (src : Memory) (n : Nat) : Memory := fun k =>
  if off ≤ k ∧ k < off + n then src (k - off) else dst k

theorem be16_lt (p : Memory) (a : Nat) : be16 p a < 2 ^ 16 := by
  have h0 := (p a).toNat_lt
  have h1 := (p (a + 1)).toNat_lt
  unfold be16
  omega

theorem be16_putBe16 (p : Memory) (a : Nat) {v : Nat} (hv : v < 2 ^ 16) : be16 (putBe16 p a v) a = v := by
  unfold be16 putBe16 put
  rw [if_neg (by omega), if_pos rfl, if_pos rfl, UInt8.toNat_ofNat', UInt8.toNat_ofNat']
  omega

theorem load32_store32 (p : Memory) (a : Nat) (v : UInt32) : load32 (store32 p a v) a = v := by
  have hv := v.toNat_lt
  have hbyte : ∀ i, i < 4 → (store32 p a v (a + i)).toNat = v.toNat / 2 ^ (8 * i) % 2 ^ 8 := by
    intro i hi
    unfold store32
    rw [if_pos ⟨by omega, by omega⟩, Nat.add_sub_cancel_left, UInt8.toNat_ofNat']
  have h0 := hbyte 0 (by decide)
  rw [Nat.add_zero] at h0
  unfold load32
  rw [h0, hbyte 1 (by decide), hbyte 2 (by decide), hbyte 3 (by decide), ← UInt32.toNat_inj, UInt32.toNat_ofNat']
  simp only [Nat.reduceMul, Nat.reducePow]
  omega

/-! ## The sum -/

/-- `while (sum >> 16) sum = (sum & 0xFFFF) + (sum >> 16)`. -/
def fold (sum : Nat) : Nat := if sum < 2 ^ 16 then sum else fold (sum % 2 ^ 16 + sum / 2 ^ 16)
termination_by sum
decreasing_by omega

/-- The words of `n` bytes added, with 32 bits. -/
def wordSum (p : Memory) (n : Nat) : Nat := forEach (n / 2) (fun i sum => (sum + be16 p (2 * i)) % 2 ^ 32) 0

/-- The checksum: an odd last byte is the high byte of a word. -/
def checksum (p : Memory) (n : Nat) : Nat :=
  let sum := wordSum p n
  let sum := if n % 2 = 1 then (sum + (p (n - 1)).toNat * 256) % 2 ^ 32 else sum
  65535 - fold sum

theorem fold_le (sum : Nat) : fold sum ≤ 65535 := by
  induction sum using fold.induct with
  | case1 sum h =>
    rw [fold, if_pos h]
    omega
  | case2 sum h ih =>
    rw [fold, if_neg h]
    exact ih

theorem fold_mod (sum : Nat) : fold sum % 65535 = sum % 65535 ∧ (fold sum = 0 ↔ sum = 0) := by
  induction sum using fold.induct with
  | case1 sum h =>
    rw [fold, if_pos h]
    exact ⟨rfl, Iff.rfl⟩
  | case2 sum h ih =>
    rw [fold, if_neg h]
    exact ⟨by omega, by omega⟩

theorem fold_eq {sum : Nat} (hpos : 0 < sum) : fold sum = (sum - 1) % 65535 + 1 := by
  have hle := fold_le sum
  obtain ⟨hmod, hzero⟩ := fold_mod sum
  omega

theorem fold_complement {sum : Nat} (hpos : 0 < sum) : fold (sum + (65535 - fold sum)) = 65535 := by
  have hle := fold_le sum
  obtain ⟨hmod, hzero⟩ := fold_mod sum
  rw [fold_eq (by omega)]
  omega

/-! ## A header and its checksum -/

theorem be16_congr {p q : Memory} {a b : Nat} (h0 : p a = q b) (h1 : p (a + 1) = q (b + 1)) : be16 p a = be16 q b := by
  unfold be16
  rw [h0, h1]

theorem putBe16_of_ne (p : Memory) {a k : Nat} (v : Nat) (h0 : k ≠ a) (h1 : k ≠ a + 1) : putBe16 p a v k = p k := by
  unfold putBe16 put
  rw [if_neg h1, if_neg h0]

theorem wordSum_congr {p q : Memory} {n : Nat} (h : ∀ k, k < n → p k = q k) : wordSum p n = wordSum q n := by
  unfold wordSum
  refine forEach_congr fun i hi sum => ?_
  rw [be16_congr (h (2 * i) (by omega)) (h (2 * i + 1) (by omega))]

theorem checksum_congr {p q : Memory} {n : Nat} (h : ∀ k, k < n → p k = q k) : checksum p n = checksum q n := by
  unfold checksum
  rw [wordSum_congr h]
  dsimp only
  by_cases hodd : n % 2 = 1
  · rw [if_pos hodd, if_pos hodd, h (n - 1) (by omega)]
  · rw [if_neg hodd, if_neg hodd]

theorem wordSum_putBe16 {p : Memory} {a v : Nat} (heven : a % 2 = 0) (hnone : be16 p a = 0) (hv : v < 2 ^ 16) :
    ∀ m, m < 2 ^ 15 → forEach m (fun i sum => (sum + be16 (putBe16 p a v) (2 * i)) % 2 ^ 32) 0 =
          forEach m (fun i sum => (sum + be16 p (2 * i)) % 2 ^ 32) 0 + (if a < 2 * m then v else 0) ∧
        forEach m (fun i sum => (sum + be16 p (2 * i)) % 2 ^ 32) 0 ≤ m * 65535 := by
  intro m
  induction m with
  | zero => exact fun _ => ⟨rfl, Nat.le_refl 0⟩
  | succ m ih =>
    intro hm
    obtain ⟨hsum, hle⟩ := ih (by omega)
    have hword := be16_lt p (2 * m)
    rw [forEach_succ, forEach_succ, hsum]
    generalize forEach m (fun i sum => (sum + be16 p (2 * i)) % 2 ^ 32) 0 = sum at hle ⊢
    by_cases hat : a = 2 * m
    · rw [← hat] at hword ⊢
      rw [be16_putBe16 p a hv, hnone, if_neg (by omega), if_pos (by omega)]
      omega
    · have hsame : be16 (putBe16 p a v) (2 * m) = be16 p (2 * m) :=
        be16_congr (putBe16_of_ne p v (by omega) (by omega)) (putBe16_of_ne p v (by omega) (by omega))
      rw [hsame]
      by_cases hbelow : a < 2 * m
      · rw [if_pos hbelow, if_pos (by omega)]
        omega
      · rw [if_neg hbelow, if_neg (by omega)]
        omega

theorem be16_le_sum (p : Memory) : ∀ m, m < 2 ^ 15 → 0 < m →
      be16 p 0 ≤ forEach m (fun i sum => (sum + be16 p (2 * i)) % 2 ^ 32) 0 ∧
        forEach m (fun i sum => (sum + be16 p (2 * i)) % 2 ^ 32) 0 ≤ m * 65535 := by
  intro m
  induction m with
  | zero => exact fun _ h => absurd h (Nat.lt_irrefl 0)
  | succ m ih =>
    intro hm _
    have hword := be16_lt p (2 * m)
    rw [forEach_succ]
    by_cases hzero : m = 0
    · subst hzero
      rw [forEach_zero, Nat.zero_add, Nat.mul_zero] at *
      omega
    · obtain ⟨hfirst, hle⟩ := ih (by omega) (by omega)
      generalize forEach m (fun i sum => (sum + be16 p (2 * i)) % 2 ^ 32) 0 = sum at hfirst hle ⊢
      omega

/-- **Words with their own checksum sum to zero.** -/
theorem checksum_cancels {p : Memory} {a n : Nat} (heven : a % 2 = 0) (hnone : be16 p a = 0) (hn : n % 2 = 0)
    (hlt : n < 2 ^ 16) (hin : a < n) (hfirst : 0 < be16 p 0) : checksum (putBe16 p a (checksum p n)) n = 0 := by
  have hpos : 0 < wordSum p n := Nat.lt_of_lt_of_le hfirst (be16_le_sum p (n / 2) (by omega) (by omega)).1
  have hle := fold_le (wordSum p n)
  have hcheck : ∀ q : Memory, checksum q n = 65535 - fold (wordSum q n) := by
    intro q
    unfold checksum
    dsimp only
    rw [if_neg (by omega)]
  rw [hcheck p, hcheck]
  obtain ⟨hsum, -⟩ := wordSum_putBe16 (v := 65535 - fold (wordSum p n)) heven hnone (by omega) (n / 2) (by omega)
  rw [if_pos (by omega)] at hsum
  change 65535 - fold (forEach (n / 2) _ 0) = 0
  rw [hsum]
  change 65535 - fold (wordSum p n + (65535 - fold (wordSum p n))) = 0
  rw [fold_complement hpos]

end Chicago95.Lib.InternetSum
