/-
# Chicago95.Lib.ChachaStream — the ChaCha20 cipher, RFC 8439, section 2.

The state is sixteen words of 32 bits: four constants, the key, the block counter and the nonce, each
little-endian. A block is twenty rounds of it added to what it was, and the stream is the blocks for the
counters from the first one on.
-/
import Mathlib

namespace Chicago95.Lib.ChachaStream

abbrev Word := BitVec 32

/-- The number of words in a state. -/
abbrev stateSize : Nat := 16

abbrev State := Vector Word stateSize

local instance neZero_stateSize : NeZero stateSize := ⟨by decide⟩

local instance neZero_blockSize : NeZero 64 := ⟨by decide⟩

/-- Section 2.1, on the words `a`, `b`, `c` and `d`. -/
def quarterRound (a b c d : Word) : Word × Word × Word × Word :=
  let a := a + b
  let d := (d ^^^ a).rotateLeft 16
  let c := c + d
  let b := (b ^^^ c).rotateLeft 12
  let a := a + b
  let d := (d ^^^ a).rotateLeft 8
  let c := c + d
  let b := (b ^^^ c).rotateLeft 7
  (a, b, c, d)

/-- `QUARTERROUND(x, y, z, w)` of section 2.2. -/
def quarter (s : State) (x y z w : Fin stateSize) : State :=
  let (a, b, c, d) := quarterRound s[x] s[y] s[z] s[w]
  (((s.set x a).set y b).set z c).set w d

def innerBlock (s : State) : State :=
  let s := quarter s 0 4 8 12
  let s := quarter s 1 5 9 13
  let s := quarter s 2 6 10 14
  let s := quarter s 3 7 11 15
  let s := quarter s 0 5 10 15
  let s := quarter s 1 6 11 12
  let s := quarter s 2 7 8 13
  quarter s 3 4 9 14

/-- Word `i` of a string of bytes. -/
def littleEndian (bytes : Nat → UInt8) (i : Nat) : Word :=
  (bytes (4 * i + 3)).toBitVec ++ (bytes (4 * i + 2)).toBitVec ++ (bytes (4 * i + 1)).toBitVec ++
    (bytes (4 * i)).toBitVec

/-- "expand 32-byte k" -/
def constants : Vector Word 4 := #v[0x61707865, 0x3320646e, 0x79622d32, 0x6b206574]

/-- The state of section 2.3. -/
def initial (key nonce : Nat → UInt8) (counter : Word) : State :=
  constants ++ (Vector.ofFn fun i : Fin 8 => littleEndian key i) ++ #v[counter] ++
    (Vector.ofFn fun i : Fin 3 => littleEndian nonce i)

/-- The state after twenty rounds, and what it was before added to it. -/
def finalState (key nonce : Nat → UInt8) (counter : Word) : State :=
  let state := initial key nonce counter
  Vector.zipWith (· + ·) (Nat.repeat innerBlock 10 state) state

/-- Byte `i` of `chacha20_block`. -/
def block (key nonce : Nat → UInt8) (counter : Word) (i : Fin 64) : UInt8 :=
  UInt8.ofBitVec (((finalState key nonce counter).get ⟨i / 4, show i.val / 4 < 16 by omega⟩).extractLsb' (8 * (i % 4)) 8)

/-- Byte `i` of the key stream, from the block for `counter` on. -/
def keystreamByte (key nonce : Nat → UInt8) (counter : Word) (i : Nat) : UInt8 :=
  block key nonce (counter + BitVec.ofNat 32 (i / 64)) (Fin.ofNat 64 i)

theorem keystreamByte_add (key nonce : Nat → UInt8) (counter : Word) (n i : Nat) :
    keystreamByte key nonce (counter + BitVec.ofNat 32 n) i = keystreamByte key nonce counter (64 * n + i) := by
  have hdiv : (64 * n + i) / 64 = n + i / 64 := by omega
  have hmod : Fin.ofNat 64 (64 * n + i) = Fin.ofNat 64 i := Fin.ext (Nat.mul_add_mod 64 n i)
  unfold keystreamByte
  rw [hdiv, hmod, BitVec.ofNat_add, BitVec.add_assoc]

/-- The block of section 2.3.2 begins with `10 f1 e7 e4`. -/
example : (List.range 4).map (keystreamByte UInt8.ofNat
    (fun i => [0, 0, 0, 9, 0, 0, 0, 0x4a, 0, 0, 0, 0].getD i 0) 1) = [0x10, 0xf1, 0xe7, 0xe4] := by
  decide +kernel

/-! ## In place -/

/-- The words at `p` and `r` after an addition, an XOR and a rotation. -/
def mixAt (s : State) (p q r : Fin stateSize) (n : Nat) : State :=
  (s.set p (s[p] + s[q])).set r ((s[r] ^^^ (s[p] + s[q])).rotateLeft n)

theorem mixAt_eq {s : State} {p q r : Fin stateSize} {n : Nat} {x y z : Word} (hp : s[p] = x) (hq : s[q] = y)
    (hr : s[r] = z) : mixAt s p q r n = (s.set p (x + y)).set r ((z ^^^ (x + y)).rotateLeft n) := by
  unfold mixAt
  rw [hp, hq, hr]

theorem set_twice {α : Type*} (s : Vector α stateSize) {x y z w : Fin stateSize} (h : [x, y, z, w].Nodup)
    (a b c d a' b' c' d' : α) :
    (((((((s.set x a).set w d).set z c).set y b).set x a').set w d').set z c').set y b' =
      (((s.set x a').set y b').set z c').set w d' := by
  simp only [List.nodup_cons, List.mem_cons, List.not_mem_nil, or_false, not_or, ← Fin.val_inj] at h
  refine Vector.ext fun i hi => ?_
  simp only [Vector.getElem_set]
  split_ifs <;> first | rfl | omega

/-- **A quarter round in place**: each word is written as soon as it is made. -/
theorem quarter_eq (s : State) {x y z w : Fin stateSize} (h : [x, y, z, w].Nodup) :
    mixAt (mixAt (mixAt (mixAt s x y w 16) z w y 12) x y w 8) z w y 7 = quarter s x y z w := by
  have hne := h
  simp only [List.nodup_cons, List.mem_cons, List.not_mem_nil, or_false, not_or, ← Fin.val_inj] at hne
  obtain ⟨⟨hxy, hxz, hxw⟩, ⟨hyz, hyw⟩, hzw, -⟩ := hne
  have hyx := Ne.symm hxy
  have hzx := Ne.symm hxz
  have hwx := Ne.symm hxw
  have hzy := Ne.symm hyz
  have hwy := Ne.symm hyw
  have hwz := Ne.symm hzw
  have hread : ∀ (t : State) (i j : Fin stateSize) (v : Word), (t.set i v)[j] = if i.val = j.val then v else t[j] :=
    fun t i j v => Vector.getElem_set ..
  unfold quarter quarterRound
  dsimp only
  generalize hx : s[x] = a
  generalize hy : s[y] = b
  generalize hz : s[z] = c
  generalize hw : s[w] = d
  -- each pass reads what the passes before have left
  have hfirst := mixAt_eq (n := 16) hx hy hw
  generalize a + b = a₁ at hfirst ⊢
  generalize (d ^^^ a₁).rotateLeft 16 = d₁ at hfirst ⊢
  rw [hfirst]
  have hsecond : mixAt ((s.set x a₁).set w d₁) z w y 12 = _ :=
    mixAt_eq (show _ = c by simp [*]) (show _ = d₁ by simp [*]) (show _ = b by simp [*])
  generalize c + d₁ = c₁ at hsecond ⊢
  generalize (b ^^^ c₁).rotateLeft 12 = b₁ at hsecond ⊢
  rw [hsecond]
  have hthird : mixAt ((((s.set x a₁).set w d₁).set z c₁).set y b₁) x y w 8 = _ :=
    mixAt_eq (show _ = a₁ by simp [*]) (show _ = b₁ by simp [*]) (show _ = d₁ by simp [*])
  generalize a₁ + b₁ = a₂ at hthird ⊢
  generalize (d₁ ^^^ a₂).rotateLeft 8 = d₂ at hthird ⊢
  rw [hthird]
  have hfourth : mixAt ((((((s.set x a₁).set w d₁).set z c₁).set y b₁).set x a₂).set w d₂) z w y 7 = _ :=
    mixAt_eq (show _ = c₁ by simp [*]) (show _ = d₂ by simp [*]) (show _ = b₁ by simp [*])
  rw [hfourth]
  exact set_twice s h ..

end Chicago95.Lib.ChachaStream
