/-
# Chicago95.Stage2.LbaScramble — the map of `security/disk_privacy/disk_lba_scramble/disk_lba_scramble.c`.

`dp_lba_scramble_add` puts an address of a disk and its scrambled address into a table that `dp_lba_scramble_get` and
`dp_lba_scramble_resolve` search from the front, each by another key. Both find what was put there because scrambling
loses nothing on a disk (`lbaScrambleOne_injective`): a XOR, a Feistel network over the two halves, a XOR, and a rotation
of each byte.
-/
import Chicago95.Lib.Feistel
import Mathlib.Tactic.IntervalCases

namespace Chicago95.Stage2.Lba

open Chicago95.Lib.Feistel Chicago95.Lib.Loop

/-! ## The code -/

/-- `DP_MAX_MAP` -/
abbrev maxMap : Nat := 256

/-- `DP_KEY_LEN` -/
abbrev keyLen : Nat := 32

/-- `dp_lba_map_t` -/
structure LbaMap where
  diskIdx : UInt8
  realLba : UInt64
  scrambledLba : UInt64
  active : Bool

/-- `dp_lba_scramble_state_t`. The map is its first `count` entries. -/
structure ScrambleState where
  map : List LbaMap
  key : Vector UInt8 keyLen
  armed : Bool

/-- Eight bytes of the key from `offset` on, the first one lowest. -/
def keyWord (key : Vector UInt8 keyLen) (offset : Nat) : UInt64 :=
  forEach 8 (fun i val =>
    val ^^^ (key.toList.getD ((offset + i) % keyLen) 0).toUInt64 <<< UInt64.ofNat (i * 8)) 0

/-- `f` of a round. -/
def roundFunction (key : Vector UInt8 keyLen) (r : Nat) (right : UInt64) : UInt64 :=
  let f := keyWord key (r * 8) ^^^ right
  (f >>> 13 ||| f <<< 51) &&& 0xFFFFFFFF

def lbaFeistel (lba : UInt64) (key : Vector UInt8 keyLen) : UInt64 :=
  let half := rounds (· ^^^ ·) (roundFunction key) 6 (lba >>> 32, lba &&& 0xFFFFFFFF)
  half.1 <<< 32 ||| half.2 &&& 0xFFFFFFFF

def lbaDeriveKeyU64 (key : Vector UInt8 keyLen) (diskIdx : UInt8) (offset : Nat) : UInt64 :=
  keyWord key offset ^^^ diskIdx.toUInt64 * 0x9E3779B97F4A7C15

/-- Byte `i` of the word, rotated left by three bits. -/
def rotateByte (i : Nat) (result : UInt64) : UInt64 :=
  let b := (result >>> UInt64.ofNat (i * 8)).toUInt8
  let b := b <<< 3 ||| b >>> 5
  result &&& ~~~(0xFF <<< UInt64.ofNat (i * 8)) ||| b.toUInt64 <<< UInt64.ofNat (i * 8)

def lbaScrambleOne (key : Vector UInt8 keyLen) (diskIdx : UInt8) (realLba : UInt64) : UInt64 :=
  let xored := realLba ^^^ lbaDeriveKeyU64 key diskIdx 0
  let permuted := lbaFeistel xored key
  forEach 8 rotateByte (permuted ^^^ lbaDeriveKeyU64 key diskIdx 16)

def dpOk : Int32 := 0
def dpErrBadParam : Int32 := -2
def dpErrNotFound : Int32 := -3
def dpErrNoSpace : Int32 := -4

/-- `dp_lba_scramble_init`, with the bytes of `sec_random_bytes`. -/
def dpLbaScrambleInit (key : Vector UInt8 keyLen) : ScrambleState := { map := [], key, armed := true }

/-- The entry of an address. -/
def LbaMap.isOf (diskIdx : UInt8) (realLba : UInt64) (e : LbaMap) : Bool :=
  e.active && e.diskIdx == diskIdx && e.realLba == realLba

/-- The entry of a scrambled address. -/
def LbaMap.isAt (diskIdx : UInt8) (scrambledLba : UInt64) (e : LbaMap) : Bool :=
  e.active && e.diskIdx == diskIdx && e.scrambledLba == scrambledLba

def dpLbaScrambleAdd (s : ScrambleState) (diskIdx : UInt8) (realLba : UInt64) : ScrambleState × Int32 :=
  if !s.armed then (s, dpErrBadParam)
  else if maxMap ≤ s.map.length then (s, dpErrNoSpace)
  else
    match s.map.find? (LbaMap.isOf diskIdx realLba) with
    | some _ => (s, dpOk)
    | none =>
      let e := { diskIdx, realLba, scrambledLba := lbaScrambleOne s.key diskIdx realLba, active := true }
      ({ s with map := s.map ++ [e] }, dpOk)

/-- `dp_lba_scramble_get`: the value of `out_scrambled`, or the error. -/
def dpLbaScrambleGet (s : ScrambleState) (diskIdx : UInt8) (realLba : UInt64) (outIsNull : Bool) :
    Except Int32 UInt64 :=
  if outIsNull || !s.armed then .error dpErrBadParam
  else
    match s.map.find? (LbaMap.isOf diskIdx realLba) with
    | some e => .ok e.scrambledLba
    | none => .error dpErrNotFound

/-- `dp_lba_scramble_resolve`: the value of `out_real`, or the error. -/
def dpLbaScrambleResolve (s : ScrambleState) (diskIdx : UInt8) (scrambledLba : UInt64) (outIsNull : Bool) :
    Except Int32 UInt64 :=
  if outIsNull || !s.armed then .error dpErrBadParam
  else
    match s.map.find? (LbaMap.isAt diskIdx scrambledLba) with
    | some e => .ok e.realLba
    | none => .error dpErrNotFound

/-- A sequence of additions. -/
def addAll (s : ScrambleState) (adds : List (UInt8 × UInt64)) : ScrambleState :=
  adds.foldl (fun s a => (dpLbaScrambleAdd s a.1 a.2).1) s

/-- The address was added, by one of the additions that returned `DP_OK`. -/
def Added (key : Vector UInt8 keyLen) (adds : List (UInt8 × UInt64)) (diskIdx : UInt8) (realLba : UInt64) : Prop :=
  ∃ before after, adds = before ++ (diskIdx, realLba) :: after ∧
    (dpLbaScrambleAdd (addAll (dpLbaScrambleInit key) before) diskIdx realLba).2 = dpOk

/-- **Consistency** of the map after `adds`: an added address is given back for its scrambled address, two addresses of
a disk have no scrambled address in common, and what more additions do changes neither result. -/
structure Consistent (key : Vector UInt8 keyLen) (adds more : List (UInt8 × UInt64)) : Prop where
  resolves : ∀ diskIdx realLba, Added key adds diskIdx realLba →
    ∃ x, dpLbaScrambleGet (addAll (dpLbaScrambleInit key) adds) diskIdx realLba false = .ok x ∧
      dpLbaScrambleResolve (addAll (dpLbaScrambleInit key) adds) diskIdx x false = .ok realLba
  distinct : ∀ diskIdx realLba realLba', Added key adds diskIdx realLba → Added key adds diskIdx realLba' →
    realLba ≠ realLba' → dpLbaScrambleGet (addAll (dpLbaScrambleInit key) adds) diskIdx realLba false ≠
      dpLbaScrambleGet (addAll (dpLbaScrambleInit key) adds) diskIdx realLba' false
  keeps : ∀ diskIdx realLba x, Added key adds diskIdx realLba →
    dpLbaScrambleGet (addAll (dpLbaScrambleInit key) adds) diskIdx realLba false = .ok x →
    dpLbaScrambleGet (addAll (dpLbaScrambleInit key) (adds ++ more)) diskIdx realLba false = .ok x ∧
      dpLbaScrambleResolve (addAll (dpLbaScrambleInit key) (adds ++ more)) diskIdx x false = .ok realLba

/-! ## Scrambling loses nothing -/

theorem getLsbD_rotateByte (w : UInt64) {i n : Nat} (hi : i < 8) (hn : n < 64) : (rotateByte i w).toBitVec.getLsbD n =
      if 8 * i ≤ n ∧ n < 8 * i + 8 then w.toBitVec.getLsbD (8 * i + (n - 8 * i + 5) % 8) else w.toBitVec.getLsbD n := by
  have hshift : ((UInt64.ofNat (i * 8)).toBitVec % 64).toNat = 8 * i := by
    simp
    omega
  have h3 : (UInt8.toBitVec 3 % 8).toNat = 3 := by decide
  have h5 : (UInt8.toBitVec 5 % 8).toNat = 5 := by decide
  have hmask : ∀ k, (UInt64.toBitVec 0xFF).getLsbD k = decide (k < 8) := by
    intro k
    rcases Nat.lt_or_ge k 64 with hk | hk
    · revert k
      decide
    · rw [BitVec.getLsbD_of_ge _ _ hk]
      exact (decide_eq_false (by omega)).symm
  simp only [rotateByte, UInt64.toBitVec_or, UInt64.toBitVec_and, UInt64.toBitVec_not, UInt64.toBitVec_shiftLeft,
    UInt64.toBitVec_shiftRight, UInt8.toBitVec_toUInt64, UInt8.toBitVec_or, UInt8.toBitVec_shiftLeft,
    UInt8.toBitVec_shiftRight, UInt64.toBitVec_toUInt8, BitVec.getLsbD_or, BitVec.getLsbD_and, BitVec.getLsbD_not,
    BitVec.shiftLeft_eq', BitVec.ushiftRight_eq', BitVec.getLsbD_shiftLeft, BitVec.getLsbD_ushiftRight,
    BitVec.getLsbD_setWidth, hshift, h3, h5, hmask]
  rcases Nat.lt_or_ge n (8 * i) with hlt | hge
  · simp [hlt, hn, show ¬ 8 * i ≤ n by omega]
  · obtain ⟨j, rfl⟩ := Nat.exists_eq_add_of_le hge
    rcases Nat.lt_or_ge j 8 with hj | hj
    · have hlow : 8 * i < 64 := by omega
      simp only [Nat.add_sub_cancel_left]
      interval_cases j <;> simp [hn, hlow]
    · have hfar : ¬ 5 + j < 8 := by omega
      simp [hn, hfar, show ¬ j < 8 by omega]

theorem rotateByte_injective {i : Nat} (hi : i < 8) : Function.Injective (rotateByte i) := by
  intro w w' heq
  apply UInt64.toBitVec_inj.mp
  apply BitVec.eq_of_getLsbD_eq
  intro n hn
  -- Bit `n` of the word is a bit of the rotated word, three places on within the byte.
  have hbit : ∀ v : UInt64, v.toBitVec.getLsbD n = (rotateByte i v).toBitVec.getLsbD
      (if 8 * i ≤ n ∧ n < 8 * i + 8 then 8 * i + (n - 8 * i + 3) % 8 else n) := by
    intro v
    split
    · next hin =>
      rw [getLsbD_rotateByte v hi (by omega), if_pos (by omega)]
      congr 1
      omega
    · next hout => rw [getLsbD_rotateByte v hi hn, if_neg hout]
  rw [hbit w, hbit w', heq]

/-- A half of the address. -/
def IsHalf (x : UInt64) : Prop := x.toNat < 2 ^ 32

theorem isHalf_mask (x : UInt64) : IsHalf (x &&& 0xFFFFFFFF) := by
  show (x &&& 0xFFFFFFFF).toNat < 2 ^ 32
  rw [UInt64.toNat_and]
  exact Nat.lt_of_le_of_lt Nat.and_le_right (by decide)

theorem IsHalf.xor {x y : UInt64} (hx : IsHalf x) (hy : IsHalf y) : IsHalf (x ^^^ y) := by
  show (x ^^^ y).toNat < 2 ^ 32
  rw [UInt64.toNat_xor]
  exact Nat.xor_lt_two_pow hx hy

theorem toNat_mask (x : UInt64) : (x &&& 0xFFFFFFFF).toNat = x.toNat % 2 ^ 32 := by
  rw [UInt64.toNat_and]
  exact Nat.and_two_pow_sub_one_eq_mod x.toNat 32

theorem toNat_join {l r : UInt64} (hl : IsHalf l) : (l <<< 32 ||| r &&& 0xFFFFFFFF).toNat =
    2 ^ 32 * l.toNat + r.toNat % 2 ^ 32 := by
  have hlt : l.toNat < 2 ^ 32 := hl
  have hshift : (l <<< 32).toNat = 2 ^ 32 * l.toNat := by
    rw [UInt64.toNat_shiftLeft]
    show l.toNat <<< 32 % 2 ^ 64 = _
    rw [Nat.shiftLeft_eq]
    omega
  rw [UInt64.toNat_or, hshift, toNat_mask, ← Nat.two_pow_add_eq_or_of_lt (Nat.mod_lt _ (by decide))]

theorem lbaFeistel_injective (key : Vector UInt8 keyLen) : Function.Injective fun lba => lbaFeistel lba key := by
  intro a b heq
  have hhigh : ∀ x : UInt64, (x >>> 32).toNat = x.toNat / 2 ^ 32 := by
    intro x
    rw [UInt64.toNat_shiftRight]
    exact Nat.shiftRight_eq_div_pow x.toNat 32
  have hhalf : ∀ x : UInt64, IsHalf (x >>> 32) := by
    intro x
    have hlt := x.toNat_lt
    show (x >>> 32).toNat < 2 ^ 32
    rw [hhigh]
    omega
  have hclosed : ∀ x : UInt64,
      IsHalf (rounds (· ^^^ ·) (roundFunction key) 6 (x >>> 32, x &&& 0xFFFFFFFF)).1 ∧
      IsHalf (rounds (· ^^^ ·) (roundFunction key) 6 (x >>> 32, x &&& 0xFFFFFFFF)).2 := fun x =>
    rounds_closed (fun i l r hl _ => hl.xor (isHalf_mask _)) (hhalf x) (isHalf_mask x)
  -- The halves at the end are those of the address that comes out.
  have hout := congrArg UInt64.toNat heq
  simp only [lbaFeistel] at hout
  obtain ⟨hal, har⟩ := hclosed a
  obtain ⟨hbl, hbr⟩ := hclosed b
  rw [toNat_join hal, toNat_join hbl, Nat.mod_eq_of_lt har, Nat.mod_eq_of_lt hbr] at hout
  have hrounds : rounds (· ^^^ ·) (roundFunction key) 6 (a >>> 32, a &&& 0xFFFFFFFF) =
      rounds (· ^^^ ·) (roundFunction key) 6 (b >>> 32, b &&& 0xFFFFFFFF) := by
    unfold IsHalf at hal har hbl hbr
    apply Prod.ext
    · apply UInt64.toNat_inj.mp
      omega
    · apply UInt64.toNat_inj.mp
      omega
  obtain ⟨hl, hr⟩ := Prod.mk.inj (rounds_injective (fun y x x' h => UInt64.xor_left_inj y |>.mp h) 6 hrounds)
  have hln := congrArg UInt64.toNat hl
  have hrn := congrArg UInt64.toNat hr
  rw [hhigh, hhigh] at hln
  rw [toNat_mask, toNat_mask] at hrn
  apply UInt64.toNat_inj.mp
  omega

theorem lbaScrambleOne_injective (key : Vector UInt8 keyLen) (diskIdx : UInt8) :
    Function.Injective (lbaScrambleOne key diskIdx) := by
  intro a b heq
  have hrotated := forEach_injective (fun i hi => rotateByte_injective hi) heq
  have hpermuted := (UInt64.xor_left_inj _).mp hrotated
  exact (UInt64.xor_left_inj _).mp (lbaFeistel_injective key hpermuted)

/-! ## The table -/

/-- **The invariant**: the entries are in use, each with its scrambled address. -/
structure Sound (key : Vector UInt8 keyLen) (s : ScrambleState) : Prop where
  key_eq : s.key = key
  armed : s.armed = true
  active : ∀ e ∈ s.map, e.active = true ∧ e.scrambledLba = lbaScrambleOne key e.diskIdx e.realLba

/-- The address has an entry. -/
def Present (s : ScrambleState) (diskIdx : UInt8) (realLba : UInt64) : Prop :=
  ∃ e ∈ s.map, e.diskIdx = diskIdx ∧ e.realLba = realLba

section Table

variable {key : Vector UInt8 keyLen} {s : ScrambleState}

theorem isOf_iff {e : LbaMap} {diskIdx : UInt8} {realLba : UInt64} (hactive : e.active = true) :
    LbaMap.isOf diskIdx realLba e = true ↔ e.diskIdx = diskIdx ∧ e.realLba = realLba := by
  simp [LbaMap.isOf, hactive]

theorem isAt_iff {e : LbaMap} {diskIdx : UInt8} {scrambledLba : UInt64} (hactive : e.active = true) :
    LbaMap.isAt diskIdx scrambledLba e = true ↔ e.diskIdx = diskIdx ∧ e.scrambledLba = scrambledLba := by
  simp [LbaMap.isAt, hactive]

theorem Sound.init (key : Vector UInt8 keyLen) : Sound key (dpLbaScrambleInit key) where
  key_eq := rfl
  armed := rfl
  active := fun _ he => nomatch he

theorem Sound.add_cases (h : Sound key s) (diskIdx : UInt8) (realLba : UInt64) :
    ((dpLbaScrambleAdd s diskIdx realLba).1 = s ∧ (dpLbaScrambleAdd s diskIdx realLba).2 ≠ dpOk) ∨
    ((dpLbaScrambleAdd s diskIdx realLba).1 = s ∧ Present s diskIdx realLba) ∨
    (dpLbaScrambleAdd s diskIdx realLba).1 =
      { s with map := s.map ++
          [{ diskIdx, realLba, scrambledLba := lbaScrambleOne key diskIdx realLba, active := true }] } := by
  unfold dpLbaScrambleAdd
  rw [h.armed]
  by_cases hspace : maxMap ≤ s.map.length
  · left
    simp only [Bool.not_true, Bool.false_eq_true, if_false, if_pos hspace]
    exact ⟨trivial, by decide⟩
  · right
    simp only [Bool.not_true, Bool.false_eq_true, if_false, if_neg hspace]
    rcases hfind : s.map.find? (LbaMap.isOf diskIdx realLba) with _ | e
    · right
      rw [h.key_eq]
    · left
      have he := List.mem_of_find?_eq_some hfind
      exact ⟨rfl, e, he, (isOf_iff (h.active e he).1).mp (List.find?_some hfind)⟩

theorem Sound.add (h : Sound key s) (diskIdx : UInt8) (realLba : UInt64) :
    Sound key (dpLbaScrambleAdd s diskIdx realLba).1 ∧ s.map <+: (dpLbaScrambleAdd s diskIdx realLba).1.map := by
  rcases h.add_cases diskIdx realLba with ⟨heq, -⟩ | ⟨heq, -⟩ | heq
  · rw [heq]
    exact ⟨h, List.prefix_refl _⟩
  · rw [heq]
    exact ⟨h, List.prefix_refl _⟩
  · rw [heq]
    refine ⟨⟨h.key_eq, h.armed, fun e he => ?_⟩, List.prefix_append _ _⟩
    rcases List.mem_append.mp he with he | he
    · exact h.active e he
    · rw [List.mem_singleton.mp he]
      exact ⟨rfl, rfl⟩

theorem Sound.addAll (h : Sound key s) (adds : List (UInt8 × UInt64)) :
    Sound key (addAll s adds) ∧ s.map <+: (addAll s adds).map := by
  induction adds generalizing s with
  | nil => exact ⟨h, List.prefix_refl _⟩
  | cons a adds ih =>
    obtain ⟨hone, hprefix⟩ := h.add a.1 a.2
    obtain ⟨hall, hrest⟩ := ih hone
    exact ⟨hall, hprefix.trans hrest⟩

theorem Sound.present_of_ok (h : Sound key s) {diskIdx : UInt8} {realLba : UInt64}
    (hok : (dpLbaScrambleAdd s diskIdx realLba).2 = dpOk) :
    Present (dpLbaScrambleAdd s diskIdx realLba).1 diskIdx realLba := by
  rcases h.add_cases diskIdx realLba with ⟨-, hne⟩ | ⟨heq, hpresent⟩ | heq
  · exact absurd hok hne
  · rw [heq]
    exact hpresent
  · rw [heq]
    exact ⟨_, List.mem_append_right _ (List.mem_singleton.mpr rfl), rfl, rfl⟩

theorem Sound.lookup (h : Sound key s) {diskIdx : UInt8} {realLba : UInt64} (hpresent : Present s diskIdx realLba) :
    dpLbaScrambleGet s diskIdx realLba false = .ok (lbaScrambleOne key diskIdx realLba) ∧
      dpLbaScrambleResolve s diskIdx (lbaScrambleOne key diskIdx realLba) false = .ok realLba := by
  obtain ⟨e, he, hdisk, hreal⟩ := hpresent
  constructor
  · rcases hfind : s.map.find? (LbaMap.isOf diskIdx realLba) with _ | f
    · exact absurd ((isOf_iff (h.active e he).1).mpr ⟨hdisk, hreal⟩) (List.find?_eq_none.mp hfind e he)
    · have hf := List.mem_of_find?_eq_some hfind
      obtain ⟨hfdisk, hfreal⟩ := (isOf_iff (h.active f hf).1).mp (List.find?_some hfind)
      simp [dpLbaScrambleGet, h.armed, hfind, (h.active f hf).2, hfdisk, hfreal]
  · rcases hfind : s.map.find? (LbaMap.isAt diskIdx (lbaScrambleOne key diskIdx realLba)) with _ | f
    · refine absurd ((isAt_iff (h.active e he).1).mpr ⟨hdisk, ?_⟩) (List.find?_eq_none.mp hfind e he)
      rw [(h.active e he).2, hdisk, hreal]
    · have hf := List.mem_of_find?_eq_some hfind
      obtain ⟨hfdisk, hfat⟩ := (isAt_iff (h.active f hf).1).mp (List.find?_some hfind)
      rw [(h.active f hf).2, hfdisk] at hfat
      have hfreal := lbaScrambleOne_injective key diskIdx hfat
      simp [dpLbaScrambleResolve, h.armed, hfind, hfreal]

end Table

theorem present_of_added {key : Vector UInt8 keyLen} {adds : List (UInt8 × UInt64)} {diskIdx : UInt8}
    {realLba : UInt64} (hadded : Added key adds diskIdx realLba) :
    Present (addAll (dpLbaScrambleInit key) adds) diskIdx realLba := by
  obtain ⟨before, after, rfl, hok⟩ := hadded
  obtain ⟨hbefore, -⟩ := (Sound.init key).addAll before
  obtain ⟨e, he, hof⟩ := hbefore.present_of_ok hok
  obtain ⟨-, hprefix⟩ := (hbefore.add diskIdx realLba).1.addAll after
  have hsplit : addAll (dpLbaScrambleInit key) (before ++ (diskIdx, realLba) :: after) =
      addAll (dpLbaScrambleAdd (addAll (dpLbaScrambleInit key) before) diskIdx realLba).1 after := by
    rw [addAll, List.foldl_append, List.foldl_cons]
    rfl
  rw [hsplit]
  exact ⟨e, hprefix.subset he, hof⟩

/-- **The map is consistent** after every sequence of additions, with every key. -/
theorem lbaMap_consistent (key : Vector UInt8 keyLen) (adds more : List (UInt8 × UInt64)) :
    Consistent key adds more := by
  obtain ⟨hsound, -⟩ := (Sound.init key).addAll adds
  obtain ⟨hmore, -⟩ := (Sound.init key).addAll (adds ++ more)
  have hlater : ∀ {diskIdx realLba}, Added key adds diskIdx realLba → Added key (adds ++ more) diskIdx realLba := by
    rintro diskIdx realLba ⟨before, after, rfl, hok⟩
    exact ⟨before, after ++ more, by simp, hok⟩
  refine ⟨fun diskIdx realLba hadded => ?_, fun diskIdx realLba realLba' hadded hadded' hne heq => ?_,
    fun diskIdx realLba x hadded hget => ?_⟩
  · exact ⟨_, hsound.lookup (present_of_added hadded)⟩
  · rw [(hsound.lookup (present_of_added hadded)).1, (hsound.lookup (present_of_added hadded')).1] at heq
    exact hne (lbaScrambleOne_injective key diskIdx (Except.ok.inj heq))
  · rw [(hsound.lookup (present_of_added hadded)).1] at hget
    rw [← Except.ok.inj hget]
    exact hmore.lookup (present_of_added (hlater hadded))

end Chicago95.Stage2.Lba
