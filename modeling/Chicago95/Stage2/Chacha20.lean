/-
# Chicago95.Stage2.Chacha20 — the stream cipher of `security/common/chacha20/chacha20.c`.

`sec_chacha20_encrypt` XORs `len` keystream bytes into the buffer it is given: block `b` of 64 bytes with
the output of the block function for the counter `b` further on. A buffer is a local array: a write past
its end is let through to whatever lies there, and noted in `overrun`.
-/
import Mathlib
import Chicago95.Lib.Loop

namespace Chicago95.Stage2

open Chicago95.Lib.Loop

/-! ## The block function -/

namespace Chacha20

/-- `uint32_t state[16]` -/
abbrev State := Vector UInt32 16

/-- `chacha20_rotl32` -/
def rotl32 (x : UInt32) (n : UInt32) : UInt32 := (x <<< n) ||| (x >>> (32 - n))

/-- `chacha20_quarter` -/
def quarter (s : State) (a b c d : Fin 16) : State :=
  let s := s.set a (s[a] + s[b])
  let s := s.set d (rotl32 (s[d] ^^^ s[a]) 16)
  let s := s.set c (s[c] + s[d])
  let s := s.set b (rotl32 (s[b] ^^^ s[c]) 12)
  let s := s.set a (s[a] + s[b])
  let s := s.set d (rotl32 (s[d] ^^^ s[a]) 8)
  let s := s.set c (s[c] + s[d])
  s.set b (rotl32 (s[b] ^^^ s[c]) 7)

/-- Two of the assignments of a quarter round: `s[p] += s[q]; s[r] = rotl(s[r] ^ s[p], n);` -/
def addXorRotate (s : State) (p q r : Fin 16) (n : UInt32) : State :=
  let s := s.set p (s[p] + s[q])
  s.set r (rotl32 (s[r] ^^^ s[p]) n)

/-- The eight quarter rounds of one pass of the loop of `chacha20_block`. -/
def doubleRound (s : State) : State :=
  let s := quarter s 0 4 8 12
  let s := quarter s 1 5 9 13
  let s := quarter s 2 6 10 14
  let s := quarter s 3 7 11 15
  let s := quarter s 0 5 10 15
  let s := quarter s 1 6 11 12
  let s := quarter s 2 7 8 13
  quarter s 3 4 9 14

/-- A little-endian word. -/
def word (bytes : Nat → UInt8) (i : Nat) : UInt32 :=
  (bytes (i * 4)).toUInt32 ||| (bytes (i * 4 + 1)).toUInt32 <<< 8 |||
    (bytes (i * 4 + 2)).toUInt32 <<< 16 ||| (bytes (i * 4 + 3)).toUInt32 <<< 24

/-- `state` of `chacha20_block`: the constants, the key, the counter and the nonce. -/
def initial (key nonce : Nat → UInt8) (counter : UInt32) : State :=
  #v[0x61707865, 0x3320646e, 0x79622d32, 0x6b206574,
    word key 0, word key 1, word key 2, word key 3, word key 4, word key 5, word key 6, word key 7,
    counter, word nonce 0, word nonce 1, word nonce 2]

/-- `CHACHA20_ROUNDS` -/
def rounds : Nat := 20

/-- `chacha20_block`: byte `i` of `out`. -/
def block (key nonce : Nat → UInt8) (counter : UInt32) (i : Nat) : UInt8 :=
  let state := initial key nonce counter
  let working := forEach (rounds / 2) (fun _ w => doubleRound w) state
  let sum := working.toList.getD (i / 4) 0 + state.toList.getD (i / 4) 0
  (sum >>> (8 * (i % 4)).toUInt32).toUInt8

end Chacha20

/-! ## Local buffers -/

/-- An array of the calling function: its bytes and what lies past them, its size, and whether a byte past
the end was written. -/
structure LocalBuf where
  bytes : Nat → UInt8
  size : Nat
  overrun : Bool

namespace LocalBuf

/-- `buf[i] = value` -/
def write (buf : LocalBuf) (i : Nat) (value : UInt8) : LocalBuf :=
  { buf with bytes := Function.update buf.bytes i value
             overrun := buf.overrun || decide (buf.size ≤ i) }

@[simp] theorem write_bytes (buf : LocalBuf) (i : Nat) (value : UInt8) :
    (buf.write i value).bytes = Function.update buf.bytes i value := rfl
@[simp] theorem write_overrun (buf : LocalBuf) (i : Nat) (value : UInt8) :
    (buf.write i value).overrun = (buf.overrun || decide (buf.size ≤ i)) := rfl

/-- An assignment to each byte from `start` on, each from what the byte held. -/
def writeEach (buf : LocalBuf) (f : Nat → UInt8 → UInt8) (start n : Nat) : LocalBuf :=
  forEach n (fun k buf => buf.write (start + k) (f (start + k) (buf.bytes (start + k)))) buf

theorem writeEach_spec (buf : LocalBuf) (f : Nat → UInt8 → UInt8) (start n : Nat) :
    (∀ i, (buf.writeEach f start n).bytes i = if start ≤ i ∧ i < start + n then f i (buf.bytes i) else buf.bytes i) ∧
    (buf.writeEach f start n).size = buf.size ∧
    (buf.writeEach f start n).overrun = (buf.overrun || decide (0 < n ∧ buf.size < start + n)) := by
  unfold writeEach
  induction n with
  | zero =>
    refine ⟨fun i => ?_, rfl, ?_⟩
    · rw [forEach_zero, if_neg (by omega)]
    · simp
  | succ n ih =>
    obtain ⟨hbytes, hsize, hover⟩ := ih
    rw [forEach_succ]
    refine ⟨fun i => ?_, hsize, ?_⟩
    · by_cases hi : i = start + n
      · subst hi
        rw [if_pos (by omega), write_bytes, Function.update_self, hbytes, if_neg (by omega)]
      · rw [write_bytes, Function.update_of_ne hi, hbytes]
        by_cases hin : start ≤ i ∧ i < start + n
        · rw [if_pos hin, if_pos (by omega)]
        · rw [if_neg hin, if_neg (by omega)]
    · rw [write_overrun, hover, hsize, Bool.or_assoc, ← Bool.decide_or]
      congr 1
      refine decide_eq_decide.mpr ?_
      omega

end LocalBuf

/-! ## The stream -/

/-- `sec_chacha20` with `out` for `in`, as `sec_chacha20_encrypt` calls it. -/
def secChacha20Encrypt (key : Nat → UInt8) (counter : UInt32) (nonce : Nat → UInt8) (out : LocalBuf)
    (len : Nat) : LocalBuf :=
  let blocks := (len + 63) % 2 ^ 32 / 64
  forEach blocks (fun b out =>
    let start := b * 64
    let stop := if len < start + 64 then len else start + 64
    out.writeEach (fun i byte => byte ^^^ Chacha20.block key nonce (counter + b.toUInt32) (i - start))
      start (stop - start)) out

theorem secChacha20Encrypt_spec (key : Nat → UInt8) (counter : UInt32) (nonce : Nat → UInt8)
    (out : LocalBuf) {len : Nat} (hlen : len ≤ 2 ^ 32 - 64) :
    (∀ i, (secChacha20Encrypt key counter nonce out len).bytes i =
      if i < len then out.bytes i ^^^ Chacha20.block key nonce (counter + (i / 64).toUInt32) (i % 64)
      else out.bytes i) ∧ (secChacha20Encrypt key counter nonce out len).overrun =
      (out.overrun || decide (0 < len ∧ out.size < len)) := by
  have hblocks : (len + 63) % 2 ^ 32 / 64 = (len + 63) / 64 := by omega
  -- after `b` blocks the first `64 * b` bytes are done
  have hloop := forEach_induction (n := (len + 63) / 64) (s := out)
    (f := fun b out =>
      let start := b * 64
      let stop := if len < start + 64 then len else start + 64
      out.writeEach (fun i byte => byte ^^^ Chacha20.block key nonce (counter + b.toUInt32) (i - start))
        start (stop - start))
    (P := fun b buf =>
      (∀ i, buf.bytes i = if i < min (b * 64) len then
          out.bytes i ^^^ Chacha20.block key nonce (counter + (i / 64).toUInt32) (i % 64)
        else out.bytes i) ∧
      buf.size = out.size ∧
      buf.overrun = (out.overrun || decide (0 < min (b * 64) len ∧ out.size < min (b * 64) len)))
    ⟨fun i => by rw [if_neg (by omega)], rfl, by simp⟩ ?_
  · obtain ⟨hbytes, _, hover⟩ := hloop
    have hdone : min ((len + 63) / 64 * 64) len = len := by omega
    rw [hdone] at hbytes hover
    unfold secChacha20Encrypt
    rw [hblocks]
    exact ⟨hbytes, hover⟩
  · rintro b buf hb ⟨hbytes, hsize, hover⟩
    have hstop : b * 64 + ((if len < b * 64 + 64 then len else b * 64 + 64) - b * 64) =
        min ((b + 1) * 64) len := by split <;> omega
    obtain ⟨hw, hws, hwo⟩ := buf.writeEach_spec
      (fun i byte => byte ^^^ Chacha20.block key nonce (counter + b.toUInt32) (i - b * 64)) (b * 64)
      ((if len < b * 64 + 64 then len else b * 64 + 64) - b * 64)
    rw [hstop] at hw hwo
    refine ⟨fun i => ?_, hws.trans hsize, ?_⟩
    · show (buf.writeEach _ _ _).bytes i = _
      rw [hw, hbytes]
      by_cases hi : b * 64 ≤ i ∧ i < min ((b + 1) * 64) len
      · have hdiv : i / 64 = b := by omega
        have hmod : i % 64 = i - b * 64 := by omega
        rw [if_pos hi, if_neg (by omega), if_pos hi.2, hdiv, hmod]
      · rw [if_neg hi]
        by_cases hlt : i < min (b * 64) len
        · rw [if_pos hlt, if_pos (by omega)]
        · rw [if_neg hlt, if_neg (by omega)]
    · show (buf.writeEach _ _ _).overrun = _
      rw [hwo, hover, hsize, Bool.or_assoc, ← Bool.decide_or]
      congr 1
      refine decide_eq_decide.mpr ?_
      omega

end Chicago95.Stage2
