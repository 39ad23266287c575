/-
# Chicago95.Stage2.JohnBrute — the brute-force engine of the password auditor.

The engine keeps an odometer over a table of characters in static variables. `john_brute_next` shows the word the
odometer stands at, turns it, and goes on with a longer word after the last of a length; after the very last word it
answers an overflow, together with that word. `john_brute_crack` stops at the first answer that is not an OK, before it
compares the word that came with it. So it tests every word but the last of the space (`crackLoop_ahead`).
-/
import Mathlib.Data.UInt
import Chicago95.Lib.Odometer

namespace Chicago95.Stage2.JohnBrute

open Chicago95.Lib.Odometer

/-! ## The engine -/

inductive JohnStatus
  | ok
  | errBadParam
  | errNotInit
  | errNoMatch
  | errOverflow
  deriving DecidableEq

/-- What the engine reads of a `john_attack_config_t`. -/
structure AttackConfig where
  charset : UInt8
  minLen : UInt8
  maxLen : UInt8
  /-- 0 is no limit. -/
  maxCandidates : UInt32
  /-- 0 is no limit. -/
  maxTimeMs : UInt64

/-- A candidate; the password is what stands before its terminating zero. -/
structure Candidate where
  password : List UInt8
  len : UInt8
  candidatesTried : UInt64
  deriving DecidableEq

/-- The static variables of the engine; the table is its first `charset_len` bytes. -/
structure Brute where
  initialized : Bool
  position : List UInt8
  currentLen : UInt8
  candidatesTried : UInt64
  charsetTable : List UInt8

def johnMaxPassword : Nat := 128

def charsetLower : UInt8 := 1
def charsetUpper : UInt8 := 2
def charsetDigits : UInt8 := 4
def charsetSymbols : UInt8 := 8

/-- The symbols of the table, from `!@#` to `<>?`. -/
def symbolChars : List UInt8 :=
  [0x21, 0x40, 0x23, 0x24, 0x25, 0x5E, 0x26, 0x2A, 0x28, 0x29, 0x2D, 0x5F, 0x2B, 0x3D, 0x7E, 0x60, 0x5B, 0x5D, 0x7B,
    0x7D, 0x7C, 0x3B, 0x27, 0x3A, 0x22, 0x2C, 0x2E, 0x2F, 0x3C, 0x3E, 0x3F]

/-- The characters from one to another. -/
def charRange (first last : UInt8) : List UInt8 :=
  (List.range' first.toNat (last.toNat + 1 - first.toNat)).map UInt8.ofNat

def buildCharsetTable (charsetFlags : UInt8) : List UInt8 :=
  (if charsetFlags &&& charsetLower ≠ 0 then charRange 0x61 0x7A else []) ++
  (if charsetFlags &&& charsetUpper ≠ 0 then charRange 0x41 0x5A else []) ++
  (if charsetFlags &&& charsetDigits ≠ 0 then charRange 0x30 0x39 else []) ++
  (if charsetFlags &&& charsetSymbols ≠ 0 then symbolChars else [])

def Brute.charsetLen (s : Brute) : UInt8 := UInt8.ofNat s.charsetTable.length

def johnBruteReset (s : Brute) : Brute :=
  { s with position := List.replicate johnMaxPassword 0, currentLen := 0, candidatesTried := 0 }

/-- `increment_odometer`, from the place before `pos` down: whether there was a next setting, and the positions. -/
def incrementOdometer (charsetLen : UInt8) (position : List UInt8) : Nat → Bool × List UInt8
  | 0 => (false, position)
  | pos + 1 =>
    if ((position.getD pos 0).toNat : Int) < charsetLen.toNat - 1 then
      (true, position.set pos (position.getD pos 0 + 1))
    else incrementOdometer charsetLen (position.set pos 0) pos

def setAllZero (position : List UInt8) (len : Nat) : List UInt8 := List.replicate len 0 ++ position.drop len

/-- The engine with a length that is at least the smallest one asked for. -/
def Brute.atLeast (s : Brute) (minLen : UInt8) : Brute :=
  if s.currentLen < minLen then { s with currentLen := minLen, position := setAllZero s.position minLen.toNat } else s

/-- The word the odometer stands at. -/
def Brute.password (s : Brute) : List UInt8 :=
  (s.position.take s.currentLen.toNat).map fun p => s.charsetTable.getD p.toNat 0

def Brute.candidate (s : Brute) : Candidate :=
  { password := s.password, len := s.currentLen, candidatesTried := s.candidatesTried }

/-- The turn of `john_brute_next`, after the candidate is written. -/
def Brute.turn (s : Brute) (config : AttackConfig) : JohnStatus × Brute :=
  let inc := incrementOdometer s.charsetLen s.position s.currentLen.toNat
  let s := { s with position := inc.2 }
  if inc.1 then (.ok, { s with candidatesTried := s.candidatesTried + 1 })
  else if config.maxLen ≤ s.currentLen then (.errOverflow, s)
  else
    let len := s.currentLen + 1
    (.ok, { s with
      currentLen := len
      position := setAllZero s.position len.toNat
      candidatesTried := s.candidatesTried + 1 })

def johnBruteNext (s : Brute) (candidate : Candidate) (config : AttackConfig) : JohnStatus × Brute × Candidate :=
  if !s.initialized then (.errNotInit, s, candidate)
  else
    let s := if s.charsetLen = 0 then { s with charsetTable := buildCharsetTable config.charset } else s
    let s := s.atLeast config.minLen
    ((s.turn config).1, (s.turn config).2, s.candidate)

/-! ## The search -/

structure JohnResult where
  found : Bool
  password : List UInt8
  passwordLen : UInt8
  candidatesTried : UInt64
  timeMs : UInt64
  rate : UInt32

/-- The local variables of `john_brute_crack`, what it has written of the result, and the words it has compared. -/
structure Crack where
  brute : Brute
  candidate : Candidate
  checked : UInt64
  found : Bool
  password : List UInt8
  passwordLen : UInt8
  /-- How often the time-stamp counter was read. -/
  readings : Nat
  tests : List (List UInt8)

/-- What the search runs on: the comparison with the target, the readings of the time-stamp counter in turn and
`tsc_per_ms`. -/
structure Machine where
  johnHashCompare : List UInt8 → Bool
  rdtsc : Nat → UInt64
  tscPerMs : UInt64

/-- Whether the time is up, asked after each 4096 candidates. -/
def Machine.timeUp (m : Machine) (config : AttackConfig) (tscStart tscNow : UInt64) : Bool :=
  config.maxTimeMs != 0 && m.tscPerMs != 0 && decide (config.maxTimeMs ≤ (tscNow - tscStart) / m.tscPerMs)

def computeRate (m : Machine) (startTsc endTsc count : UInt64) : UInt64 :=
  if endTsc - startTsc = 0 ∨ count = 0 then 0
  else if m.tscPerMs = 0 then count
  else if (endTsc - startTsc) / m.tscPerMs = 0 then count
  else count * 1000 / ((endTsc - startTsc) / m.tscPerMs)

/-- The `for (;;)` of `john_brute_crack`: the last status of `john_brute_next` and the variables at the `break`. -/
def crackLoop (m : Machine) (config : AttackConfig) (tscStart : UInt64) : Nat → Crack → Option (JohnStatus × Crack)
  | 0, _ => none
  | fuel + 1, c =>
    let next := johnBruteNext c.brute c.candidate config
    let c := { c with brute := next.2.1, candidate := next.2.2 }
    if next.1 ≠ .ok then some (next.1, c)
    else if config.maxCandidates ≠ 0 ∧ config.maxCandidates.toUInt64 ≤ c.checked then some (next.1, c)
    else
      let c := { c with tests := c.tests ++ [c.candidate.password] }
      if m.johnHashCompare c.candidate.password then
        some (next.1, { c with
          found := true
          password := c.candidate.password
          passwordLen := c.candidate.len })
      else
        let c := { c with checked := c.checked + 1 }
        if c.checked &&& 0xFFF = 0 then
          let tscNow := m.rdtsc c.readings
          let c := { c with readings := c.readings + 1 }
          if m.timeUp config tscStart tscNow then some (next.1, c) else crackLoop m config tscStart fuel c
        else crackLoop m config tscStart fuel c

/-- How `john_brute_crack` ends: its status, the result, the engine it leaves and the words it compared. -/
structure CrackEnd where
  status : JohnStatus
  result : JohnResult
  brute : Brute
  tests : List (List UInt8)

/-- The result before the search. -/
def noResult : JohnResult :=
  { found := false, password := [], passwordLen := 0, candidatesTried := 0, timeMs := 0, rate := 0 }

/-- `john_brute_crack` after its loop. -/
def crackEnd (m : Machine) (tscStart : UInt64) (ret : JohnStatus) (c : Crack) : CrackEnd :=
  let tscNow := m.rdtsc c.readings
  { status :=
      if !c.found && decide (ret ≠ .ok ∧ ret ≠ .errOverflow) then ret else if c.found then .ok else .errNoMatch
    result := {
      found := c.found
      password := c.password
      passwordLen := c.passwordLen
      candidatesTried := c.brute.candidatesTried
      timeMs := if m.tscPerMs ≠ 0 then (tscNow - tscStart) / m.tscPerMs else 0
      rate := (computeRate m tscStart tscNow c.brute.candidatesTried).toUInt32 }
    brute := c.brute
    tests := c.tests }

/-- The variables of `john_brute_crack` at the start of its loop; the candidate is not written yet. -/
def crackStart (s : Brute) (candidate : Candidate) : Crack :=
  { brute := johnBruteReset s, candidate := candidate, checked := 0, found := false, password := [], passwordLen := 0,
    readings := 1, tests := [] }

/-- `john_brute_crack`, with a bound on the turns of its loop; `candidate` is what its local variable holds before the
first word, `result` what the caller's result does. -/
def johnBruteCrack (m : Machine) (s : Brute) (candidate : Candidate) (config : AttackConfig) (result : JohnResult)
    (fuel : Nat) : Option CrackEnd :=
  if !s.initialized then
    some { status := .errNotInit, result := result, brute := s, tests := [] }
  else
    let s := { s with charsetTable := buildCharsetTable config.charset }
    if s.charsetLen = 0 then
      some { status := .errBadParam, result := noResult, brute := s, tests := [] }
    else
      (crackLoop m config (m.rdtsc 0) fuel (crackStart s candidate)).map fun r => crackEnd m (m.rdtsc 0) r.1 r.2

/-! ## What one call does -/

/-- The settings of the wheels of a word, the last place first. -/
def digits (position : List UInt8) (len : Nat) : List Nat := ((position.take len).map UInt8.toNat).reverse

theorem digits_succ {position : List UInt8} {len : Nat} (h : len < position.length) :
    digits position (len + 1) = (position.getD len 0).toNat :: digits position len := by
  rw [digits, List.take_succ_eq_append_getElem h, List.map_append, List.reverse_append, List.getD_eq_getElem _ _ h]
  rfl

theorem digits_set_self {position : List UInt8} {len : Nat} (b : UInt8) :
    digits (position.set len b) len = digits position len := by
  rw [digits, List.take_set_of_le (Nat.le_refl len)]
  rfl

theorem digits_setAllZero (position : List UInt8) (len : Nat) :
    digits (setAllZero position len) len = List.replicate len 0 := by
  rw [digits, setAllZero, List.take_left' (List.length_replicate), List.map_replicate, List.reverse_replicate]
  rfl

theorem digits_zeros {n len : Nat} (h : len ≤ n) : digits (List.replicate n 0) len = List.replicate len 0 := by
  rw [digits, List.take_replicate, Nat.min_eq_left h, List.map_replicate, List.reverse_replicate]
  rfl

theorem length_setAllZero {position : List UInt8} {len : Nat} (h : len ≤ position.length) :
    (setAllZero position len).length = position.length := by
  rw [setAllZero, List.length_append, List.length_replicate, List.length_drop, Nat.add_sub_cancel' h]

theorem incrementOdometer_spec {n : UInt8} {position : List UInt8} {pos : Nat} (hpos : pos ≤ position.length) :
    (incrementOdometer n position pos).2.length = position.length ∧
      (incrementOdometer n position pos).2.drop pos = position.drop pos ∧ advance n.toNat (digits position pos) =
        if (incrementOdometer n position pos).1 then some (digits (incrementOdometer n position pos).2 pos)
        else none := by
  induction pos generalizing position with
  | zero => exact ⟨rfl, rfl, rfl⟩
  | succ pos ih =>
    have hlt := UInt8.toNat_lt n
    rw [digits_succ hpos, advance, incrementOdometer]
    by_cases h : ((position.getD pos 0).toNat : Int) < n.toNat - 1
    · have hsucc : (position.getD pos 0 + 1).toNat = (position.getD pos 0).toNat + 1 := by
        have hone : (1 : UInt8).toNat = 1 := rfl
        rw [UInt8.toNat_add, hone]
        exact Nat.mod_eq_of_lt (by omega)
      have hset : (position.set pos (position.getD pos 0 + 1)).getD pos 0 = position.getD pos 0 + 1 := by
        rw [List.getD_eq_getElem _ _ (by rwa [List.length_set]), List.getElem_set_self]
      rw [if_pos h, if_pos (by omega), if_pos rfl, digits_succ (by rwa [List.length_set]), digits_set_self, hset,
        hsucc]
      exact ⟨List.length_set, List.drop_set_of_lt (Nat.lt_succ_self pos), rfl⟩
    · have hrest : pos ≤ (position.set pos 0).length := by
        rw [List.length_set]
        exact Nat.le_of_succ_le hpos
      obtain ⟨hlen, hdrop, hadv⟩ := ih hrest
      rw [List.length_set] at hlen
      rw [digits_set_self] at hadv
      have hplace : pos < (incrementOdometer n (position.set pos 0) pos).2.length := hlen ▸ hpos
      -- the place that overflows is 0, and what lies before it is turned
      have hsplit : (incrementOdometer n (position.set pos 0) pos).2.drop pos = 0 :: position.drop (pos + 1) := by
        rw [hdrop, List.drop_eq_getElem_cons (by rwa [List.length_set]), List.getElem_set_self,
          List.drop_set_of_lt (Nat.lt_succ_self pos)]
      rw [List.drop_eq_getElem_cons hplace] at hsplit
      rw [if_neg h, if_neg (by omega), hadv, digits_succ hplace, List.getD_eq_getElem _ _ hplace,
        (List.cons.inj hsplit).1]
      refine ⟨hlen, (List.cons.inj hsplit).2, ?_⟩
      split
      · rfl
      · rfl

/-- An engine in the middle of a search over a table, at a length up to `max`. -/
structure Searching (chars : List UInt8) (max : UInt8) (s : Brute) : Prop where
  initialized : s.initialized = true
  table : s.charsetTable = chars
  sized : s.position.length = johnMaxPassword
  short : s.currentLen ≤ max
  onSymbols : ∀ d ∈ digits s.position s.currentLen.toNat, d < chars.length

/-- The words an engine still has to show: those of its length, and those of the lengths after it. -/
def Brute.wordsAhead (s : Brute) (max : UInt8) : List (List UInt8) :=
  ahead s.charsetTable (digits s.position s.currentLen.toNat) ++
    wordsBetween s.charsetTable (s.currentLen.toNat + 1) max.toNat

section Calls

variable {chars : List UInt8} {config : AttackConfig} {s : Brute}

theorem Brute.password_eq (s : Brute) : s.password = shown s.charsetTable (digits s.position s.currentLen.toNat) := by
  rw [Brute.password, shown, digits, ← List.map_reverse, List.reverse_reverse, List.map_map]
  rfl

theorem wordsAhead_start (hchars : chars ≠ []) (htable : s.charsetTable = chars)
    (hzero : digits s.position s.currentLen.toNat = List.replicate s.currentLen.toNat 0)
    (hle : s.currentLen ≤ config.maxLen) :
    s.wordsAhead config.maxLen = wordsBetween chars s.currentLen.toNat config.maxLen.toNat := by
  rw [UInt8.le_iff_toNat_le] at hle
  rw [Brute.wordsAhead, htable, hzero, ahead_zeros hchars, wordsBetween, wordsBetween, Nat.sub_add_comm hle,
    List.range'_succ, List.flatMap_cons, Nat.add_sub_add_right]

theorem turn_spec (hchars : chars ≠ []) (hfits : chars.length < 256) (hbuf : config.maxLen.toNat < johnMaxPassword)
    (h : Searching chars config.maxLen s) :
    (s.turn config).1 = .errOverflow ∧ s.wordsAhead config.maxLen = [s.password] ∨
      (s.turn config).1 = .ok ∧ Searching chars config.maxLen (s.turn config).2 ∧
        s.currentLen ≤ (s.turn config).2.currentLen ∧
        s.wordsAhead config.maxLen = s.password :: (s.turn config).2.wordsAhead config.maxLen := by
  obtain ⟨hinit, htable, hsized, hshort, hsymbols⟩ := h
  have hlen : s.charsetLen.toNat = chars.length := by
    rw [Brute.charsetLen, htable, UInt8.toNat_ofNat']
    exact Nat.mod_eq_of_lt hfits
  have hshort' := UInt8.le_iff_toNat_le.mp hshort
  have hplaces : s.currentLen.toNat ≤ s.position.length := by
    rw [hsized]
    exact Nat.le_trans hshort' (Nat.le_of_lt hbuf)
  obtain ⟨hkept, -, hadv⟩ := incrementOdometer_spec (n := s.charsetLen) hplaces
  rw [hlen] at hadv
  have hahead := ahead_eq hsymbols
  unfold Brute.turn
  dsimp only
  by_cases hturned : (incrementOdometer s.charsetLen s.position s.currentLen.toNat).1 = true
  · -- some wheel of this length was not at its last symbol
    rw [if_pos hturned] at hadv
    rw [if_pos hturned]
    refine Or.inr ⟨rfl, ⟨hinit, htable, hkept.trans hsized, hshort, lt_of_advance hsymbols hadv⟩, UInt8.le_refl _, ?_⟩
    rw [Brute.wordsAhead, Brute.wordsAhead, Brute.password_eq, htable, hahead, hadv]
    rfl
  · rw [if_neg hturned] at hadv
    rw [if_neg hturned]
    have hshown : s.wordsAhead config.maxLen =
        s.password :: wordsBetween chars (s.currentLen.toNat + 1) config.maxLen.toNat := by
      rw [Brute.wordsAhead, Brute.password_eq, htable, hahead, hadv]
      rfl
    by_cases hmax : config.maxLen ≤ s.currentLen
    · rw [if_pos hmax]
      refine Or.inl ⟨rfl, ?_⟩
      rw [UInt8.le_iff_toNat_le] at hmax
      rw [hshown, wordsBetween, Nat.sub_eq_zero_of_le (Nat.succ_le_succ hmax)]
      rfl
    · rw [if_neg hmax]
      rw [UInt8.le_iff_toNat_le, Nat.not_le] at hmax
      have hnext : (s.currentLen + 1).toNat = s.currentLen.toNat + 1 := by
        have hone : (1 : UInt8).toNat = 1 := rfl
        have hbyte := UInt8.toNat_lt config.maxLen
        rw [UInt8.toNat_add, hone]
        exact Nat.mod_eq_of_lt (by omega)
      have hle : s.currentLen + 1 ≤ config.maxLen := by
        rw [UInt8.le_iff_toNat_le, hnext]
        exact hmax
      refine Or.inr ⟨rfl, ⟨hinit, htable, ?_, hle, ?_⟩, ?_, ?_⟩
      · rw [length_setAllZero, hkept, hsized]
        rw [hkept, hsized, hnext]
        exact Nat.le_trans hmax (Nat.le_of_lt hbuf)
      · dsimp only
        rw [digits_setAllZero]
        intro d hd
        rw [List.eq_of_mem_replicate hd]
        exact List.length_pos_iff.mpr hchars
      · rw [UInt8.le_iff_toNat_le, hnext]
        exact Nat.le_succ _
      · rw [hshown, ← hnext]
        exact congrArg _ (Eq.symm (wordsAhead_start hchars htable (digits_setAllZero _ _) hle))

theorem charsetLen_ne_zero (hchars : chars ≠ []) (hfits : chars.length < 256) (htable : s.charsetTable = chars) :
    s.charsetLen ≠ 0 := by
  rw [Ne, ← UInt8.toNat_inj, Brute.charsetLen, htable, UInt8.toNat_ofNat', Nat.mod_eq_of_lt hfits]
  exact Nat.ne_of_gt (List.length_pos_iff.mpr hchars)

theorem johnBruteNext_eq (hchars : chars ≠ []) (hfits : chars.length < 256) (hinit : s.initialized = true)
    (htable : s.charsetTable = chars) (candidate : Candidate) : johnBruteNext s candidate config =
      (((s.atLeast config.minLen).turn config).1, ((s.atLeast config.minLen).turn config).2,
        (s.atLeast config.minLen).candidate) := by
  rw [johnBruteNext, if_neg (by rw [hinit]; exact Bool.false_ne_true), if_neg (charsetLen_ne_zero hchars hfits htable)]

theorem atLeast_of_le {min : UInt8} (h : min ≤ s.currentLen) : s.atLeast min = s := by
  rw [Brute.atLeast, if_neg (UInt8.not_lt.mpr h)]

end Calls

/-! ## The whole search -/

/-- What a search is to do with its words: compare them in turn up to the first that matches, and report that one. -/
structure Searched (m : Machine) (words : List (List UInt8)) (before : List (List UInt8)) (c : Crack) : Prop where
  tests : c.tests = before ++ upTo m.johnHashCompare words
  found : c.found = true ↔ ∃ w ∈ words, m.johnHashCompare w = true
  password : c.found = true → words.find? m.johnHashCompare = some c.password
  passwordLen : c.found = true → c.passwordLen.toNat = c.password.length

section Search

variable {chars : List UInt8} {config : AttackConfig} {m : Machine}

theorem Searched.head {words before : List (List UInt8)} {w : List UInt8} {c : Crack}
    (hw : m.johnHashCompare w = true) (htests : c.tests = before ++ [w]) (hfound : c.found = true)
    (hpassword : c.password = w) (hlen : c.passwordLen.toNat = w.length) : Searched m (w :: words) before c := by
  refine ⟨?_, ⟨fun _ => ⟨w, List.mem_cons_self, hw⟩, fun _ => hfound⟩, fun _ => ?_, fun _ => ?_⟩
  · rw [htests, upTo, if_pos hw]
  · rw [List.find?_cons_of_pos hw, hpassword]
  · rw [hlen, hpassword]

theorem Searched.cons {words before : List (List UInt8)} {w : List UInt8} {c : Crack}
    (h : Searched m words (before ++ [w]) c) (hw : ¬m.johnHashCompare w = true) : Searched m (w :: words) before c := by
  refine ⟨?_, ?_, fun hf => ?_, h.passwordLen⟩
  · rw [h.tests, upTo, if_neg hw, List.append_assoc]
    rfl
  · rw [h.found, List.exists_mem_cons_iff, or_iff_right hw]
  · rw [List.find?_cons_of_neg hw]
    exact h.password hf

theorem crackLoop_ahead (hchars : chars ≠ []) (hfits : chars.length < 256)
    (hbuf : config.maxLen.toNat < johnMaxPassword) (hcount : config.maxCandidates = 0) (htime : config.maxTimeMs = 0)
    (tscStart : UInt64) {fuel : Nat} {c : Crack} (h : Searching chars config.maxLen c.brute)
    (hmin : config.minLen ≤ c.brute.currentLen) (hfound : c.found = false)
    (hfuel : (c.brute.wordsAhead config.maxLen).length ≤ fuel) :
    ∃ ret c', crackLoop m config tscStart fuel c = some (ret, c') ∧ (ret = .ok ∨ ret = .errOverflow) ∧
      Searched m (c.brute.wordsAhead config.maxLen).dropLast c.tests c' := by
  induction fuel generalizing c with
  | zero =>
    rcases turn_spec hchars hfits hbuf h with ⟨-, hlast⟩ | ⟨-, -, -, hcons⟩
    · rw [hlast] at hfuel
      exact absurd hfuel (Nat.not_succ_le_zero 0)
    · rw [hcons] at hfuel
      exact absurd hfuel (Nat.not_succ_le_zero _)
  | succ fuel ih =>
    have hnext : johnBruteNext c.brute c.candidate config =
        ((c.brute.turn config).1, (c.brute.turn config).2, c.brute.candidate) := by
      rw [johnBruteNext_eq hchars hfits h.initialized h.table, atLeast_of_le hmin]
    have htimeUp (now : UInt64) : m.timeUp config tscStart now = false := by
      rw [Machine.timeUp, htime]
      rfl
    unfold crackLoop
    rw [hnext]
    dsimp only
    rcases turn_spec hchars hfits hbuf h with ⟨hret, hlast⟩ | ⟨hret, hnew, hlonger, hcons⟩
    · rw [hret, if_pos (by decide), hlast]
      have hnot : ¬c.found = true := by
        rw [hfound]
        exact Bool.false_ne_true
      refine ⟨_, _, rfl, Or.inr rfl, (List.append_nil _).symm, ?_, fun hf => absurd hf hnot, fun hf => absurd hf hnot⟩
      exact ⟨fun hf => absurd hf hnot, fun ⟨w, hw, _⟩ => absurd hw List.not_mem_nil⟩
    · rw [hret, if_neg (by decide), if_neg (fun hlimit => hlimit.1 hcount)]
      have hne : (c.brute.turn config).2.wordsAhead config.maxLen ≠ [] := by
        rcases turn_spec hchars hfits hbuf hnew with ⟨-, hlast⟩ | ⟨-, -, -, hmore⟩
        · rw [hlast]
          exact List.cons_ne_nil _ _
        · rw [hmore]
          exact List.cons_ne_nil _ _
      have hlen : c.brute.currentLen.toNat = c.brute.password.length := by
        rw [Brute.password, List.length_map, List.length_take, h.sized, Nat.min_eq_left]
        exact Nat.le_trans (UInt8.le_iff_toNat_le.mp h.short) (Nat.le_of_lt hbuf)
      rw [hcons] at hfuel ⊢
      rw [List.dropLast_cons_of_ne_nil hne]
      by_cases hmatch : m.johnHashCompare c.brute.candidate.password = true
      · rw [if_pos hmatch]
        exact ⟨_, _, rfl, Or.inl rfl, Searched.head hmatch rfl rfl rfl hlen⟩
      · rw [if_neg hmatch]
        have hrest {c' : Crack} (hbrute : c'.brute = (c.brute.turn config).2)
            (htests : c'.tests = c.tests ++ [c.brute.password]) (hfound : c'.found = false) :
            ∃ ret d, crackLoop m config tscStart fuel c' = some (ret, d) ∧ (ret = .ok ∨ ret = .errOverflow) ∧
              Searched m (c.brute.password :: ((c.brute.turn config).2.wordsAhead config.maxLen).dropLast) c.tests d := by
          rw [← hbrute] at hnew hlonger hfuel ⊢
          obtain ⟨ret, d, hrun, hends, hsearched⟩ :=
            ih hnew (UInt8.le_trans hmin hlonger) hfound (Nat.le_of_succ_le_succ hfuel)
          rw [htests] at hsearched
          exact ⟨ret, d, hrun, hends, hsearched.cons hmatch⟩
        split
        · rw [if_neg (by rw [htimeUp]; exact Bool.false_ne_true)]
          exact hrest rfl rfl hfound
        · exact hrest rfl rfl hfound

theorem crackLoop_atLeast (hchars : chars ≠ []) (hfits : chars.length < 256) (tscStart : UInt64) (fuel : Nat) {c : Crack}
    (hinit : c.brute.initialized = true) (htable : c.brute.charsetTable = chars) :
    crackLoop m config tscStart fuel c =
      crackLoop m config tscStart fuel { c with brute := c.brute.atLeast config.minLen } := by
  have hkept : (c.brute.atLeast config.minLen).initialized = true ∧
      (c.brute.atLeast config.minLen).charsetTable = chars ∧ config.minLen ≤ (c.brute.atLeast config.minLen).currentLen := by
    unfold Brute.atLeast
    split
    · exact ⟨hinit, htable, UInt8.le_refl _⟩
    · rename_i hle
      exact ⟨hinit, htable, UInt8.not_lt.mp hle⟩
  cases fuel with
  | zero => rfl
  | succ fuel =>
    rw [crackLoop, crackLoop, johnBruteNext_eq hchars hfits hinit htable,
      johnBruteNext_eq hchars hfits hkept.1 hkept.2.1, atLeast_of_le hkept.2.2]

theorem crackLoop_succ {tscStart : UInt64} {fuel : Nat} {c : Crack} {r : JohnStatus × Crack}
    (h : crackLoop m config tscStart fuel c = some r) : crackLoop m config tscStart (fuel + 1) c = some r := by
  induction fuel generalizing c with
  | zero => cases h
  | succ fuel ih =>
    rw [crackLoop] at h ⊢
    dsimp only at h ⊢
    split
    · rename_i hret
      rwa [if_pos hret] at h
    · rename_i hret
      rw [if_neg hret] at h
      split
      · rename_i hlimit
        rwa [if_pos hlimit] at h
      · rename_i hlimit
        rw [if_neg hlimit] at h
        split
        · rename_i hmatch
          rwa [if_pos hmatch] at h
        · rename_i hmatch
          rw [if_neg hmatch] at h
          split
          · rename_i hread
            rw [if_pos hread] at h
            split
            · rename_i hup
              rwa [if_pos hup] at h
            · rename_i hup
              rw [if_neg hup] at h
              exact ih h
          · rename_i hread
            rw [if_neg hread] at h
            exact ih h

theorem crackLoop_of_le {tscStart : UInt64} {fuel more : Nat} {c : Crack} {r : JohnStatus × Crack}
    (h : crackLoop m config tscStart fuel c = some r) (hle : fuel ≤ more) :
    crackLoop m config tscStart more c = some r := by
  induction hle with
  | refl => exact h
  | step _ ih => exact crackLoop_succ ih

end Search

/-! ## The character sets -/

theorem sublist_ite {α : Type} (p : Prop) [Decidable p] (xs : List α) : (if p then xs else []).Sublist xs := by
  split
  · exact List.Sublist.refl xs
  · exact List.nil_sublist xs

theorem buildCharsetTable_sublist (flags : UInt8) : (buildCharsetTable flags).Sublist (buildCharsetTable 0x0F) :=
  (((sublist_ite _ _).append (sublist_ite _ _)).append (sublist_ite _ _)).append (sublist_ite _ _)

theorem buildCharsetTable_nodup (flags : UInt8) : (buildCharsetTable flags).Nodup := by
  have hall : (buildCharsetTable 0x0F).Nodup := by decide
  exact hall.sublist (buildCharsetTable_sublist flags)

theorem length_buildCharsetTable (flags : UInt8) : (buildCharsetTable flags).length < 256 := by
  have hall : (buildCharsetTable 0x0F).length < 256 := by decide
  exact Nat.lt_of_le_of_lt (buildCharsetTable_sublist flags).length_le hall

/-! ## Completeness -/

/-- The words over the character set with a length between the two of the configuration. -/
def InSpace (config : AttackConfig) (w : List UInt8) : Prop :=
  config.minLen.toNat ≤ w.length ∧ w.length ≤ config.maxLen.toNat ∧ ∀ c ∈ w, c ∈ buildCharsetTable config.charset

/-- These words by length and then in odometer order. -/
def searchSpace (config : AttackConfig) : List (List UInt8) :=
  wordsBetween (buildCharsetTable config.charset) config.minLen.toNat config.maxLen.toNat

theorem mem_searchSpace {config : AttackConfig} {w : List UInt8} : w ∈ searchSpace config ↔ InSpace config w :=
  mem_wordsBetween

theorem searchSpace_nodup (config : AttackConfig) : (searchSpace config).Nodup :=
  nodup_wordsBetween (buildCharsetTable_nodup config.charset) _ _

/-- What a complete search does: it tests the words of the space in turn, each once, up to the first that matches, and
finds one exactly if one matches, the first of them. -/
structure Complete (m : Machine) (config : AttackConfig) (e : CrackEnd) : Prop where
  tests : e.tests = upTo m.johnHashCompare (searchSpace config)
  once : e.tests.Nodup
  found : e.result.found = true ↔ ∃ w, InSpace config w ∧ m.johnHashCompare w = true
  status : e.status = if e.result.found then .ok else .errNoMatch
  password : e.result.found = true → (searchSpace config).find? m.johnHashCompare = some e.result.password
  passwordLen : e.result.found = true → e.result.passwordLen.toNat = e.result.password.length

section Completeness

variable {m : Machine} {s : Brute} {config : AttackConfig} {result : JohnResult}

theorem searchSpace_eq_concat (hchars : buildCharsetTable config.charset ≠ []) (hle : config.minLen ≤ config.maxLen) :
    searchSpace config = (searchSpace config).dropLast ++
      [List.replicate config.maxLen.toNat ((buildCharsetTable config.charset).getLast hchars)] := by
  obtain ⟨ws, hws⟩ := wordsBetween_eq_concat hchars (UInt8.le_iff_toNat_le.mp hle)
  rw [searchSpace, hws, List.dropLast_concat]

theorem mem_dropLast_searchSpace (hchars : buildCharsetTable config.charset ≠ []) (hle : config.minLen ≤ config.maxLen)
    {w : List UInt8} : w ∈ (searchSpace config).dropLast ↔
      InSpace config w ∧ w ≠ List.replicate config.maxLen.toNat ((buildCharsetTable config.charset).getLast hchars) := by
  have hnodup := searchSpace_nodup config
  have hmem : w ∈ searchSpace config ↔ InSpace config w := mem_searchSpace
  rw [searchSpace_eq_concat hchars hle] at hnodup hmem
  have hlast := (List.nodup_append.mp hnodup).2.2
  rw [← hmem, List.mem_append, List.mem_singleton]
  constructor
  · exact fun h => ⟨Or.inl h, hlast w h _ (List.mem_singleton_self _)⟩
  · rintro ⟨h | h, hne⟩
    · exact h
    · exact absurd h hne

theorem johnBruteReset_atLeast (s : Brute) {min : UInt8} (h : min.toNat ≤ johnMaxPassword) :
    ((johnBruteReset s).atLeast min).currentLen = min ∧
      ((johnBruteReset s).atLeast min).position = List.replicate johnMaxPassword 0 ∧
      ((johnBruteReset s).atLeast min).initialized = s.initialized ∧
      ((johnBruteReset s).atLeast min).charsetTable = s.charsetTable := by
  unfold Brute.atLeast
  split
  · refine ⟨rfl, ?_, rfl, rfl⟩
    dsimp only [johnBruteReset]
    rw [setAllZero, List.drop_replicate, List.replicate_append_replicate, Nat.add_sub_cancel' h]
  · rename_i hzero
    refine ⟨?_, rfl, rfl, rfl⟩
    exact UInt8.le_antisymm (UInt8.zero_le) (UInt8.not_lt.mp hzero)

theorem johnBruteCrack_of_le {candidate : Candidate} {fuel more : Nat} {e : CrackEnd}
    (h : johnBruteCrack m s candidate config result fuel = some e) (hle : fuel ≤ more) :
    johnBruteCrack m s candidate config result more = some e := by
  rw [johnBruteCrack] at h ⊢
  split
  · rename_i hinit
    rwa [if_pos hinit] at h
  · rename_i hinit
    rw [if_neg hinit] at h
    dsimp only at h ⊢
    split
    · rename_i hlen
      rwa [if_pos hlen] at h
    · rename_i hlen
      rw [if_neg hlen] at h
      obtain ⟨r, hr, rfl⟩ := Option.map_eq_some_iff.mp h
      exact Option.map_eq_some_iff.mpr ⟨r, crackLoop_of_le hr hle, rfl⟩

theorem johnBruteCrack_ends (candidate : Candidate) (hinit : s.initialized = true)
    (hchars : buildCharsetTable config.charset ≠ []) (hle : config.minLen ≤ config.maxLen)
    (hbuf : config.maxLen.toNat < johnMaxPassword) (hcount : config.maxCandidates = 0) (htime : config.maxTimeMs = 0)
    {fuel : Nat} (hfuel : (searchSpace config).length ≤ fuel) :
    ∃ ret c, johnBruteCrack m s candidate config result fuel = some (crackEnd m (m.rdtsc 0) ret c) ∧
      (ret = .ok ∨ ret = .errOverflow) ∧ Searched m (searchSpace config).dropLast [] c := by
  have hfits := length_buildCharsetTable config.charset
  have hmin : config.minLen.toNat ≤ johnMaxPassword :=
    Nat.le_trans (UInt8.le_iff_toNat_le.mp hle) (Nat.le_of_lt hbuf)
  obtain ⟨hlen, hposition, hsame, htable⟩ :=
    johnBruteReset_atLeast { s with charsetTable := buildCharsetTable config.charset } hmin
  have hzero := digits_zeros hmin
  have hsearching : Searching (buildCharsetTable config.charset) config.maxLen
      ((johnBruteReset { s with charsetTable := buildCharsetTable config.charset }).atLeast config.minLen) := by
    refine ⟨hsame.trans hinit, htable, ?_, ?_, ?_⟩
    · rw [hposition, List.length_replicate]
    · rw [hlen]
      exact hle
    · rw [hposition, hlen, hzero]
      intro d hd
      rw [List.eq_of_mem_replicate hd]
      exact List.length_pos_iff.mpr hchars
  have hahead := wordsAhead_start hchars htable (by rw [hposition, hlen, hzero]) hsearching.short
  rw [hlen] at hahead
  have henough : (((johnBruteReset { s with charsetTable := buildCharsetTable config.charset }).atLeast
      config.minLen).wordsAhead config.maxLen).length ≤ fuel := by
    rw [hahead]
    exact hfuel
  obtain ⟨ret, c, hrun, hends, hsearched⟩ :=
    crackLoop_ahead hchars hfits hbuf hcount htime (m.rdtsc 0)
      (c := { crackStart { s with charsetTable := buildCharsetTable config.charset } candidate with
        brute := (johnBruteReset { s with charsetTable := buildCharsetTable config.charset }).atLeast config.minLen })
      hsearching (UInt8.le_of_eq hlen.symm) rfl henough
  rw [hahead] at hsearched
  refine ⟨ret, c, ?_, hends, hsearched⟩
  rw [johnBruteCrack, if_neg (by rw [hinit]; exact Bool.false_ne_true),
    if_neg (charsetLen_ne_zero hchars hfits rfl), crackLoop_atLeast hchars hfits _ _ hinit rfl]
  exact congrArg _ hrun

theorem complete_iff (hchars : buildCharsetTable config.charset ≠ []) (hle : config.minLen ≤ config.maxLen)
    {tscStart : UInt64} {ret : JohnStatus} {c : Crack} (hret : ret = .ok ∨ ret = .errOverflow)
    (h : Searched m (searchSpace config).dropLast [] c) : Complete m config (crackEnd m tscStart ret c) ↔
      ∃ w ∈ (searchSpace config).dropLast, m.johnHashCompare w = true := by
  have hconcat := searchSpace_eq_concat hchars hle
  have htests : c.tests = upTo m.johnHashCompare (searchSpace config).dropLast := h.tests.trans (List.nil_append _)
  constructor
  · intro hcomplete
    have hall : c.tests = upTo m.johnHashCompare (searchSpace config) := hcomplete.tests
    rw [hconcat, htests] at hall
    exact upTo_concat_eq_iff.mp hall.symm
  · intro hmatch
    have hfound : c.found = true := h.found.mpr hmatch
    obtain ⟨w, hw, hcompare⟩ := hmatch
    have hall : c.tests = upTo m.johnHashCompare (searchSpace config) := by
      have hlast := upTo_append ⟨w, hw, hcompare⟩
        [List.replicate config.maxLen.toNat ((buildCharsetTable config.charset).getLast hchars)]
      rw [← hconcat] at hlast
      exact htests.trans hlast.symm
    refine ⟨hall, ?_, ?_, ?_, fun _ => ?_, fun _ => h.passwordLen hfound⟩
    · have honce : c.tests.Nodup := by
        rw [hall]
        exact (searchSpace_nodup config).sublist (upTo_sublist _ _)
      exact honce
    · exact ⟨fun _ => ⟨w, ((mem_dropLast_searchSpace hchars hle).mp hw).1, hcompare⟩, fun _ => hfound⟩
    · rcases hret with rfl | rfl <;> simp only [crackEnd, hfound, Bool.not_true, Bool.false_and, Bool.false_eq_true, if_false,
        if_true]
    · rw [hconcat, List.find?_append, h.password hfound]
      rfl

/-- The search is complete for exactly those targets that match a word of the space other than its last one: the last
one comes with an overflow and is not compared. -/
theorem johnBruteCrack_complete_iff (candidate : Candidate) (hinit : s.initialized = true)
    (hchars : buildCharsetTable config.charset ≠ []) (hle : config.minLen ≤ config.maxLen)
    (hbuf : config.maxLen.toNat < johnMaxPassword) (hcount : config.maxCandidates = 0) (htime : config.maxTimeMs = 0) :
    (∃ fuel e, johnBruteCrack m s candidate config result fuel = some e ∧ Complete m config e) ↔ ∃ w, InSpace config w ∧
        w ≠ List.replicate config.maxLen.toNat ((buildCharsetTable config.charset).getLast hchars) ∧
        m.johnHashCompare w = true := by
  have hends {fuel : Nat} (hfuel : (searchSpace config).length ≤ fuel) :=
    @johnBruteCrack_ends m s config result candidate hinit hchars hle hbuf hcount htime fuel hfuel
  have hcond : (∃ w ∈ (searchSpace config).dropLast, m.johnHashCompare w = true) ↔ ∃ w, InSpace config w ∧
      w ≠ List.replicate config.maxLen.toNat ((buildCharsetTable config.charset).getLast hchars) ∧
      m.johnHashCompare w = true := by
    simp only [mem_dropLast_searchSpace hchars hle, and_assoc]
  rw [← hcond]
  constructor
  · rintro ⟨fuel, e, hrun, he⟩
    -- with as many turns as there are words the run ends in the same way
    obtain ⟨ret, c, hfull, hret, hsearched⟩ := hends (Nat.le_max_right fuel (searchSpace config).length)
    have hmore := johnBruteCrack_of_le hrun (Nat.le_max_left fuel (searchSpace config).length)
    rw [hfull] at hmore
    cases hmore
    exact (complete_iff hchars hle hret hsearched).mp he
  · intro hmatch
    obtain ⟨ret, c, hrun, hret, hsearched⟩ := hends (Nat.le_refl _)
    exact ⟨_, _, hrun, (complete_iff hchars hle hret hsearched).mpr hmatch⟩

end Completeness

namespace OneDigit

/-- A search for passwords of one digit. -/
def config : AttackConfig :=
  { charset := charsetDigits, minLen := 1, maxLen := 1, maxCandidates := 0, maxTimeMs := 0 }

/-- The engine after `john_brute_init`. -/
def engine : Brute :=
  { initialized := true, position := List.replicate johnMaxPassword 0, currentLen := 0, candidatesTried := 0,
    charsetTable := [] }

def candidate : Candidate := { password := [], len := 0, candidatesTried := 0 }

/-- A target that is matched by one password. -/
def machine (password : List UInt8) : Machine :=
  { johnHashCompare := fun w => w == password, rdtsc := fun _ => 0, tscPerMs := 1000 }

/-- The search for a seven is complete. -/
theorem seven_complete : ∃ fuel e, johnBruteCrack (machine [0x37]) engine candidate config noResult fuel = some e ∧
      Complete (machine [0x37]) config e :=
  (johnBruteCrack_complete_iff candidate rfl (by decide) (by decide) (by decide) rfl rfl).mpr
    ⟨[0x37], ⟨by decide, by decide, List.forall_mem_singleton.mpr (by decide)⟩, by decide, by decide⟩

/-- The search for a nine is not: the nine is a word of the space that matches, and the answer is that none does. -/
theorem nine_missed : InSpace config [0x39] ∧ (machine [0x39]).johnHashCompare [0x39] = true ∧
      (johnBruteCrack (machine [0x39]) engine candidate config noResult 10).map
        (fun e => (e.status, e.result.found, e.tests)) = some (.errNoMatch, false,
            [[0x30], [0x31], [0x32], [0x33], [0x34], [0x35], [0x36], [0x37], [0x38]]) ∧
      ¬∃ fuel e, johnBruteCrack (machine [0x39]) engine candidate config noResult fuel = some e ∧
        Complete (machine [0x39]) config e := by
  have hspace : InSpace config [0x39] := ⟨by decide, by decide, List.forall_mem_singleton.mpr (by decide)⟩
  have hrun : (johnBruteCrack (machine [0x39]) engine candidate config noResult 10).map
      (fun e => (e.status, e.result.found, e.tests)) =
        some (.errNoMatch, false, [[0x30], [0x31], [0x32], [0x33], [0x34], [0x35], [0x36], [0x37], [0x38]]) := by
    decide
  refine ⟨hspace, by decide, hrun, ?_⟩
  rintro ⟨fuel, e, he, hcomplete⟩
  obtain ⟨e', he', hends⟩ := Option.map_eq_some_iff.mp hrun
  have hsame : e = e' := Option.some.inj
    ((johnBruteCrack_of_le he (Nat.le_max_left fuel 10)).symm.trans (johnBruteCrack_of_le he' (Nat.le_max_right fuel 10)))
  have hfound := hcomplete.found.mpr ⟨[0x39], hspace, by decide⟩
  rw [hsame, (Prod.mk.inj (Prod.mk.inj hends).2).1] at hfound
  exact Bool.false_ne_true hfound

end OneDigit

end Chicago95.Stage2.JohnBrute
