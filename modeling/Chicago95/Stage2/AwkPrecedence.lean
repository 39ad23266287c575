/-
# Chicago95.Stage2.AwkPrecedence — what an expression of `shell/awk.c` comes to.

The reference is `Phrase.result`, by recursion on the phrase: the levels of the grammar are the precedence of the
operators, and its chains lean to the left. A text is worth the number in front of it, a division by 0 is worth 0.
-/
import Chicago95.Stage2.AwkReading
import Mathlib.Data.List.Forall2

namespace Chicago95.Stage2.AwkPrecedence

open Chicago95.Lib.SlotRing
open Chicago95.Stage2.AwkExpr
open Chicago95.Stage2.AwkTrees
open Chicago95.Stage2.AwkReading

/-! ## The reference -/

/-- What an expression comes to. -/
inductive Operand
  | int (n : Int32)
  | text (s : List UInt8)

/-- The number in front of a text, with its sign. -/
def numeral (s : List UInt8) : List UInt8 :=
  if awkPeek s = 0x2D then 0x2D :: (s.drop 1).takeWhile awksIsdigit else s.takeWhile awksIsdigit

/-- The value of a numeral. -/
def numeralValue (s : List UInt8) : Int32 :=
  if awkPeek s = 0x2D then -Int32.ofNat (decimal (s.drop 1)) else Int32.ofNat (decimal s)

namespace Operand

def isInt : Operand → Bool
  | .int _ => true
  | .text _ => false

/-- As a number. -/
def value : Operand → Int32
  | .int n => n
  | .text s => numeralValue (numeral s)

/-- Its number fits the buffers of the evaluator, which is no bound on the number: 128 bytes are more than 32 bits need.
-/
def Short : Operand → Prop
  | .int _ => True
  | .text s => (numeral s).length < 128

end Operand

/-- The operations on numbers. -/
def MulOp.apply (op : MulOp) (a b : Int32) : Int32 :=
  match op with
  | .mul => a * b
  | .div => if b = 0 then 0 else a / b
  | .mod => if b = 0 then 0 else a % b

def AddOp.apply (op : AddOp) (a b : Int32) : Int32 :=
  match op with
  | .add => a + b
  | .sub => a - b

def CmpOp.apply (op : CmpOp) (a b : Int32) : Int32 :=
  match op with
  | .eq => if a = b then 1 else 0
  | .ne => if a ≠ b then 1 else 0
  | .ge => if b ≤ a then 1 else 0
  | .le => if a ≤ b then 1 else 0
  | .gt => if b < a then 1 else 0
  | .lt => if a < b then 1 else 0

/-- A variable: the counters, the texts of the program, and what has been assigned to any other name. -/
def nameOperand (prog : AwkProgram) (name : List UInt8) : Operand :=
  if name = nrName then .int prog.nr
  else if name = nfName then .int prog.nf
  else if name = fsName then .text prog.fs
  else if name = ofsName then .text prog.ofs
  else if name = filenameName then .text prog.filename
  else if awkVarIsNum prog name then .int (awkVarGetNum prog name)
  else .text (awkVarGetStr prog name)

/-- How many characters an expression has. -/
def Operand.length : Operand → Int32
  | .int n => Int32.ofNat (awksItoa n).length
  | .text s => Int32.ofNat s.length

/-- What a phrase comes to. -/
def result (prog : AwkProgram) {ℓ : Level} : Phrase ℓ → Operand
  | .number _ neg ds => .int (numberOf neg ds)
  | .string _ q => .text q.meant
  | .field _ _ ds => .text (awkGetField prog (Int32.ofNat (decimal ds.1)))
  | .name _ n => nameOperand prog n.1
  | .length _ => .int (Int32.ofNat (awkGetField prog 0).length)
  | .lengthOf _ _ e _ => .int (result prog e).length
  | .int _ _ e _ => .int (result prog e).value
  | .paren _ e _ => result prog e
  | .mulFst e => result prog e
  | .mul l _ op r => .int (MulOp.apply op (result prog l).value (result prog r).value)
  | .addFst e => result prog e
  | .add l _ op r => .int (AddOp.apply op (result prog l).value (result prog r).value)
  | .cmpFst e => result prog e
  | .cmp l _ op r => .int (CmpOp.apply op (result prog l).value (result prog r).value)

/-- An expression over integers: its texts are read as numbers that fit a buffer or, as a whole, measured in one, and a
comparison has a number on one side at least; two texts would be compared as texts. -/
def Integer (prog : AwkProgram) {ℓ : Level} : Phrase ℓ → Prop
  | .number .. | .length .. => True
  | .string ws q => (result prog (.string ws q)).Short
  | .field ws ws₁ ds => (result prog (.field ws ws₁ ds)).Short
  | .name ws n => (result prog (.name ws n)).Short
  | .lengthOf _ _ e _ => ∃ s, result prog e = .text s ∧ s.length < 128
  | .int _ _ e _ => Integer prog e
  | .paren _ e _ => Integer prog e
  | .mulFst e => Integer prog e
  | .mul l _ _ r => Integer prog l ∧ Integer prog r
  | .addFst e => Integer prog e
  | .add l _ _ r => Integer prog l ∧ Integer prog r
  | .cmpFst e => Integer prog e
  | .cmp l _ _ r =>
    Integer prog l ∧ Integer prog r ∧ ((result prog l).isInt = true ∨ (result prog r).isInt = true)

/-- The one quotient that does not fit 32 bits. -/
def MulOp.Traps (op : MulOp) (a b : Int32) : Prop := op ≠ .mul ∧ a = Int32.minValue ∧ b = -1

/-- No division of the phrase is that quotient. -/
def NoTrap (prog : AwkProgram) {ℓ : Level} : Phrase ℓ → Prop
  | .number .. | .string .. | .field .. | .name .. | .length .. | .lengthOf .. => True
  | .int _ _ e _ => NoTrap prog e
  | .paren _ e _ => NoTrap prog e
  | .mulFst e => NoTrap prog e
  | .mul l _ op r =>
    NoTrap prog l ∧ NoTrap prog r ∧ ¬MulOp.Traps op (result prog l).value (result prog r).value
  | .addFst e => NoTrap prog e
  | .add l _ _ r => NoTrap prog l ∧ NoTrap prog r
  | .cmpFst e => NoTrap prog e
  | .cmp l _ _ r => NoTrap prog l ∧ NoTrap prog r

/-! ## Numbers in texts -/

theorem foldl_digits (s : List UInt8) : digitsValue s = Int32.ofNat (decimal (s.takeWhile awksIsdigit)) :=
  foldl_decimal _ 0

theorem awksAtoi_eq (s : List UInt8) : awksAtoi s = numeralValue (numeral s) := by
  have hhead : s.head? = some 0x2D ↔ awkPeek s = 0x2D := by cases s <;> simp [awkPeek]
  by_cases h : awkPeek s = 0x2D
  · simp [awksAtoi, numeral, numeralValue, hhead, h, foldl_digits]
  · have hdigits : awkPeek (s.takeWhile awksIsdigit) ≠ 0x2D := by
      cases s with
      | nil => exact h
      | cons c s =>
        by_cases hc : awksIsdigit c = true
        · simpa [hc] using h
        · simp [hc, awkPeek]
    simp [awksAtoi, numeral, numeralValue, hhead, h, hdigits, foldl_digits]

theorem numeral_take {s : List UInt8} {m : Nat} (h : (numeral s).length ≤ m) (hm : 0 < m) :
    numeral (s.take m) = numeral s := by
  have hpeek : awkPeek (s.take m) = awkPeek s := by
    cases s with
    | nil => simp
    | cons c s =>
      obtain ⟨m, rfl⟩ : ∃ k, m = k + 1 := ⟨m - 1, by omega⟩
      rfl
  by_cases hneg : awkPeek s = 0x2D
  · simp only [numeral, hneg, if_true, List.length_cons] at h
    have hcut : ((s.drop 1).take (m - 1)).takeWhile awksIsdigit = (s.drop 1).takeWhile awksIsdigit := by
      rw [← List.take_takeWhile, List.take_of_length_le (by omega)]
    simp only [numeral, hpeek, hneg, if_true, List.drop_take, hcut]
  · simp only [numeral, hneg, if_false] at h
    simp only [numeral, hpeek, hneg, if_false, ← List.take_takeWhile, List.take_of_length_le h]

/-! ## One step of the evaluator -/

theorem nodes_pos {ℓ : Level} (e : Phrase ℓ) : 0 < e.nodes.length := by
  induction e <;> simp_all only [Phrase.nodes, List.length_append, List.length_cons] <;> omega

/-- An evaluation leaves a number where the reference has one, and the value of the reference. -/
structure Gives (v : Value) (o : Operand) : Prop where
  kind : v.isNum = o.isInt
  value : v.toNum = o.value

theorem gives_ofNum (n : Int32) : Gives (.ofNum n) (.int n) := ⟨rfl, rfl⟩

theorem gives_text {s : List UInt8} {strMax : Nat} {n : Int32} (hshort : (Operand.text s).Short)
    (hmax : 128 ≤ strMax) : Gives { str := awksStrcpy s strMax, num := n, isNum := false } (.text s) := by
  have hlt : (numeral s).length < 128 := hshort
  refine ⟨rfl, ?_⟩
  show awksAtoi (s.take (strMax - 1)) = numeralValue (numeral s)
  rw [awksAtoi_eq, numeral_take (by omega) (by omega)]

section Eval

variable {prog : AwkProgram} {node : Ptr → Node} {p : Ptr}

/-- An operand has its value at once, whatever the fuel, with the text cut off behind the buffer. -/
def Now (prog : AwkProgram) (node : Ptr → Node) (p : Ptr) (strMax : Nat) (v : Value) : Prop :=
  ∀ fuel, awkEvalExpr prog node (fuel + 1) (some p) strMax = some v

theorem now_number {n : Int32} (h : node p = { type := .number, numValue := n }) (strMax : Nat) :
    Now prog node p strMax (.ofNum n) := by
  intro fuel
  simp [awkEvalExpr, h]

theorem now_string {s : List UInt8} (h : node p = { type := .string, strValue := s }) (strMax : Nat) :
    Now prog node p strMax { str := awksStrcpy s strMax, num := awksAtoi s, isNum := false } := by
  intro fuel
  simp [awkEvalExpr, h]

theorem now_field {ds : Digits} (h : node p = fieldNode ds) (hwhole : awkPeek ds.1 = 0x30 → ds.1.length = 1)
    (strMax : Nat) :
    ∃ n, Now prog node p strMax
      { str := awksStrcpy (awkGetField prog (Int32.ofNat (decimal ds.1))) strMax, num := n, isNum := false } := by
  by_cases h0 : awkPeek ds.1 = 0x30
  · obtain ⟨c, hc⟩ := List.length_eq_one_iff.mp (hwhole h0)
    have hzero : decimal ds.1 = 0 := by
      rw [hc, peek_cons] at h0
      rw [hc, h0]
      rfl
    rw [fieldNode, if_pos h0] at h
    exact ⟨_, fun fuel => by simp [awkEvalExpr, h, hzero]; rfl⟩
  · rw [fieldNode, if_neg h0] at h
    exact ⟨_, fun fuel => by simp [awkEvalExpr, h]; rfl⟩

theorem now_name {n : List UInt8} (h : node p = { type := .variable, varName := n }) (strMax : Nat) :
    Now prog node p strMax (evalVariable prog n strMax) := by
  intro fuel
  simp [awkEvalExpr, h]

theorem now_length (h : node p = { type := .length }) (strMax : Nat) :
    Now prog node p strMax (.ofNum (Int32.ofNat (awkGetField prog 0).length)) := by
  intro fuel
  simp [awkEvalExpr, h]

theorem gives_name {n : List UInt8} {strMax : Nat} (hshort : (nameOperand prog n).Short) (hmax : 128 ≤ strMax) :
    Gives (evalVariable prog n strMax) (nameOperand prog n) := by
  unfold nameOperand at hshort ⊢
  unfold evalVariable
  split_ifs at hshort ⊢ with hnr hnf hfs hofs hfile hnum
  · exact gives_ofNum _
  · exact gives_ofNum _
  · exact gives_text hshort hmax
  · exact gives_text hshort hmax
  · exact gives_text hshort hmax
  · exact ⟨hnum, by simp [Value.toNum, hnum, Operand.value]⟩
  · rw [Bool.not_eq_true] at hnum
    rw [hnum]
    exact gives_text hshort hmax

theorem str_name {n s : List UInt8} (h : nameOperand prog n = .text s) (strMax : Nat) :
    (evalVariable prog n strMax).str = awksStrcpy s strMax := by
  unfold nameOperand at h
  unfold evalVariable
  split_ifs at h ⊢ <;> cases h <;> rfl

theorem now_text {ℓ : Level} (e : Phrase ℓ) {slots : List Ptr} {s : List UInt8} (hholds : e.Holds node p slots)
    (hwhole : e.Whole) (hres : result prog e = .text s) (strMax : Nat) :
    ∃ v, v.str = awksStrcpy s strMax ∧ Now prog node p strMax v := by
  induction e generalizing slots with
  | string ws q =>
    obtain ⟨-, hn, -⟩ := hholds
    cases hres
    exact ⟨_, rfl, now_string hn strMax⟩
  | field ws ws₁ ds =>
    obtain ⟨-, hn, -⟩ := hholds
    obtain ⟨n, hnow⟩ := now_field hn hwhole strMax
    cases hres
    exact ⟨_, rfl, hnow⟩
  | name ws n =>
    obtain ⟨-, hn, -⟩ := hholds
    exact ⟨_, str_name hres strMax, now_name hn strMax⟩
  | paren ws e ws₂ ih => exact ih hholds hwhole hres
  | mulFst e ih | addFst e ih | cmpFst e ih => exact ih hholds hwhole hres
  | number | length | lengthOf | int | mul | add | cmp => exact absurd hres (by simp [result])

/-! ## Functions and operators -/

theorem eval_length {a : Ptr} (h : node p = funNode .length a) (fuel strMax : Nat) :
    awkEvalExpr prog node (fuel + 1) (some p) strMax =
      (awkEvalExpr prog node fuel (some a) strMax).map fun left =>
        { left with num := Int32.ofNat left.str.length, isNum := true } := by
  simp [awkEvalExpr, h, funNode, Option.map_eq_bind]

theorem eval_int {a : Ptr} (h : node p = funNode .tonum a) (fuel strMax : Nat) :
    awkEvalExpr prog node (fuel + 1) (some p) strMax =
      (awkEvalExpr prog node fuel (some a) strMax).map fun left => .ofNum left.toNum := by
  simp [awkEvalExpr, h, funNode, Option.map_eq_bind]

/-- What an arithmetic operation makes of the values of its operands. -/
def binary (prog : AwkProgram) (node : Ptr → Node) (fuel : Nat) (l r : Ptr) (f : Value → Value → Option Value) :
    Option Value := do
  let left ← awkEvalExpr prog node fuel (some l) 128
  let right ← awkEvalExpr prog node fuel (some r) 128
  f left right

theorem eval_mul {op : MulOp} {l r : Ptr} (h : node p = opNode op.type l r) (fuel strMax : Nat) :
    awkEvalExpr prog node (fuel + 1) (some p) strMax = binary prog node fuel l r fun left right =>
      (awkArith op.type left.toNum right.toNum).map .ofNum := by
  cases op <;> simp [awkEvalExpr, h, opNode, MulOp.type, binary, Option.map_eq_bind]

theorem eval_add {op : AddOp} {l r : Ptr} (h : node p = opNode op.type l r) (fuel strMax : Nat) :
    awkEvalExpr prog node (fuel + 1) (some p) strMax = binary prog node fuel l r fun left right =>
      (awkArith op.type left.toNum right.toNum).map .ofNum := by
  cases op <;> simp [awkEvalExpr, h, opNode, AddOp.type, binary, Option.map_eq_bind]

theorem eval_cmp {op : CmpOp} {l r : Ptr} (h : node p = opNode op.type l r) (fuel strMax : Nat) :
    awkEvalExpr prog node (fuel + 1) (some p) strMax = binary prog node fuel l r fun left right =>
      if !left.isNum && !right.isNum then some (.ofBool (awkCompare op.type (awksStrcmp left.str right.str) 0))
      else some (.ofBool (awkCompare op.type left.toNum right.toNum)) := by
  cases op <;> simp [awkEvalExpr, h, opNode, CmpOp.type, binary]

theorem arith_mul (op : MulOp) (a b : Int32) :
    (¬MulOp.Traps op a b → awkArith op.type a b = some (MulOp.apply op a b)) ∧
      (MulOp.Traps op a b → awkArith op.type a b = none) := by
  have hb : (-1 : Int32) ≠ 0 := by decide
  constructor
  · intro h
    cases op <;> by_cases h0 : b = 0 <;>
      simp_all [awkArith, MulOp.type, MulOp.apply, MulOp.Traps, divide]
  · rintro ⟨hop, rfl, rfl⟩
    cases op with
    | mul => exact absurd rfl hop
    | div | mod => simp [awkArith, MulOp.type, divide]

theorem arith_add (op : AddOp) (a b : Int32) : awkArith op.type a b = some (AddOp.apply op a b) := by
  cases op <;> rfl

theorem gives_cmp (op : CmpOp) (a b : Int32) : Gives (.ofBool (awkCompare op.type a b)) (.int (CmpOp.apply op a b)) := by
  refine ⟨rfl, ?_⟩
  cases op <;> simp [Value.toNum, Value.ofBool, awkCompare, CmpOp.type, CmpOp.apply, Operand.value]

theorem not_both_text {left right : Value} {a b : Operand} (hl : Gives left a) (hr : Gives right b)
    (h : a.isInt = true ∨ b.isInt = true) : (!left.isNum && !right.isNum) = false := by
  rw [hl.kind, hr.kind]
  rcases h with h | h <;> simp [h]

/-! ## The evaluator and the reference -/

theorem Now.eq {strMax fuel : Nat} {v w : Value} (h : Now prog node p strMax w)
    (hv : awkEvalExpr prog node fuel (some p) strMax = some v) : v = w := by
  cases fuel with
  | zero => exact absurd hv (by simp [awkEvalExpr])
  | succ fuel => exact Option.some_injective _ (hv.symm.trans (h fuel))

theorem binary_some {fuel : Nat} {l r : Ptr} {f : Value → Value → Option Value} {v : Value}
    (h : binary prog node fuel l r f = some v) : ∃ left right, awkEvalExpr prog node fuel (some l) 128 = some left ∧
      awkEvalExpr prog node fuel (some r) 128 = some right ∧ f left right = some v := by
  obtain ⟨left, hleft, h⟩ := Option.bind_eq_some_iff.mp h
  obtain ⟨right, hright, h⟩ := Option.bind_eq_some_iff.mp h
  exact ⟨left, right, hleft, hright, h⟩

theorem binary_eq {fuel : Nat} {l r : Ptr} {f : Value → Value → Option Value} {left right : Value}
    (hleft : awkEvalExpr prog node fuel (some l) 128 = some left)
    (hright : awkEvalExpr prog node fuel (some r) 128 = some right) : binary prog node fuel l r f = f left right := by
  rw [binary, hleft, hright]
  rfl

theorem gives_length {left : Value} {s : List UInt8} {strMax : Nat} (hstr : left.str = awksStrcpy s strMax)
    (hs : s.length < 128) (hmax : 128 ≤ strMax) :
    Gives { left with num := Int32.ofNat left.str.length, isNum := true } (.int (Operand.text s).length) := by
  have hall : awksStrcpy s strMax = s := List.take_of_length_le (by omega)
  rw [hall] at hstr
  exact ⟨rfl, by simp [Value.toNum, Operand.value, Operand.length, hstr]⟩

theorem eval_sound {ℓ : Level} (e : Phrase ℓ) {slots : List Ptr} (hholds : e.Holds node p slots) (hwhole : e.Whole)
    (hint : Integer prog e) {fuel strMax : Nat} (hmax : 128 ≤ strMax) {v : Value}
    (hv : awkEvalExpr prog node fuel (some p) strMax = some v) : NoTrap prog e ∧ Gives v (result prog e) := by
  induction e generalizing p slots fuel strMax v with
  | number ws neg ds =>
    obtain ⟨-, hn, -⟩ := hholds
    rw [(now_number hn strMax).eq hv]
    exact ⟨trivial, gives_ofNum _⟩
  | string ws q =>
    obtain ⟨-, hn, -⟩ := hholds
    rw [(now_string hn strMax).eq hv]
    exact ⟨trivial, gives_text hint hmax⟩
  | field ws ws₁ ds =>
    obtain ⟨-, hn, -⟩ := hholds
    obtain ⟨n, hnow⟩ := now_field hn hwhole strMax
    rw [hnow.eq hv]
    exact ⟨trivial, gives_text hint hmax⟩
  | name ws n =>
    obtain ⟨-, hn, -⟩ := hholds
    rw [(now_name hn strMax).eq hv]
    exact ⟨trivial, gives_name hint hmax⟩
  | length ws =>
    obtain ⟨-, hn, -⟩ := hholds
    rw [(now_length hn strMax).eq hv]
    exact ⟨trivial, gives_ofNum _⟩
  | lengthOf ws ws₁ e ws₂ ih =>
    obtain ⟨a, rest, -, hn, harg, -⟩ := hholds
    obtain ⟨s, hres, hs⟩ := hint
    obtain ⟨fuel, rfl⟩ := fuel_pos hv
    obtain ⟨w, hstr, hnow⟩ := now_text e harg hwhole hres strMax
    rw [eval_length hn, Option.map_eq_some_iff] at hv
    obtain ⟨left, hleft, rfl⟩ := hv
    rw [hnow.eq hleft, result, hres]
    exact ⟨trivial, gives_length hstr hs hmax⟩
  | int ws ws₁ e ws₂ ih =>
    obtain ⟨a, rest, -, hn, harg, -⟩ := hholds
    obtain ⟨fuel, rfl⟩ := fuel_pos hv
    rw [eval_int hn, Option.map_eq_some_iff] at hv
    obtain ⟨left, hleft, rfl⟩ := hv
    obtain ⟨hsafe, hgives⟩ := ih harg hwhole hint hmax hleft
    rw [result, ← hgives.value]
    exact ⟨hsafe, gives_ofNum _⟩
  | paren ws e ws₂ ih => exact ih hholds hwhole hint hmax hv
  | mulFst e ih | addFst e ih | cmpFst e ih => exact ih hholds hwhole hint hmax hv
  | mul l ws op r ihl ihr =>
    obtain ⟨lp, ls, rp, rs, -, hn, hl, hr, -⟩ := hholds
    obtain ⟨fuel, rfl⟩ := fuel_pos hv
    rw [eval_mul hn] at hv
    obtain ⟨left, right, hleft, hright, hv⟩ := binary_some hv
    obtain ⟨hsl, hgl⟩ := ihl hl hwhole.1 hint.1 le_rfl hleft
    obtain ⟨hsr, hgr⟩ := ihr hr hwhole.2 hint.2 le_rfl hright
    obtain ⟨hsafe, htrap⟩ := arith_mul op left.toNum right.toNum
    by_cases ht : MulOp.Traps op left.toNum right.toNum
    · rw [htrap ht] at hv
      exact absurd hv (by simp)
    · rw [hsafe ht] at hv
      obtain rfl := Option.some_injective _ hv
      rw [hgl.value, hgr.value] at ht ⊢
      exact ⟨⟨hsl, hsr, ht⟩, gives_ofNum _⟩
  | add l ws op r ihl ihr =>
    obtain ⟨lp, ls, rp, rs, -, hn, hl, hr, -⟩ := hholds
    obtain ⟨fuel, rfl⟩ := fuel_pos hv
    rw [eval_add hn] at hv
    obtain ⟨left, right, hleft, hright, hv⟩ := binary_some hv
    obtain ⟨hsl, hgl⟩ := ihl hl hwhole.1 hint.1 le_rfl hleft
    obtain ⟨hsr, hgr⟩ := ihr hr hwhole.2 hint.2 le_rfl hright
    rw [arith_add, hgl.value, hgr.value] at hv
    obtain rfl := Option.some_injective _ hv
    exact ⟨⟨hsl, hsr⟩, gives_ofNum _⟩
  | cmp l ws op r ihl ihr =>
    obtain ⟨lp, ls, rp, rs, -, hn, hl, hr, -⟩ := hholds
    obtain ⟨hil, hir, hkind⟩ := hint
    obtain ⟨fuel, rfl⟩ := fuel_pos hv
    rw [eval_cmp hn] at hv
    obtain ⟨left, right, hleft, hright, hv⟩ := binary_some hv
    obtain ⟨hsl, hgl⟩ := ihl hl hwhole.1 hil le_rfl hleft
    obtain ⟨hsr, hgr⟩ := ihr hr hwhole.2 hir le_rfl hright
    rw [not_both_text hgl hgr hkind, hgl.value, hgr.value] at hv
    obtain rfl := Option.some_injective _ hv
    exact ⟨⟨hsl, hsr⟩, gives_cmp op _ _⟩

theorem Now.returns {strMax fuel : Nat} {v : Value} {o : Operand} (h : Now prog node p strMax v) (hg : Gives v o)
    (hfuel : 0 < fuel) : ∃ w, awkEvalExpr prog node fuel (some p) strMax = some w ∧ Gives w o := by
  obtain ⟨fuel, rfl⟩ : ∃ f, fuel = f + 1 := ⟨fuel - 1, by omega⟩
  exact ⟨v, h fuel, hg⟩

theorem eval_total {ℓ : Level} (e : Phrase ℓ) {slots : List Ptr} (hholds : e.Holds node p slots) (hwhole : e.Whole)
    (hint : Integer prog e) (hsafe : NoTrap prog e) {fuel strMax : Nat} (hmax : 128 ≤ strMax)
    (hfuel : e.nodes.length ≤ fuel) :
    ∃ v, awkEvalExpr prog node fuel (some p) strMax = some v ∧ Gives v (result prog e) := by
  induction e generalizing p slots fuel strMax with
  | number ws neg ds =>
    obtain ⟨-, hn, -⟩ := hholds
    exact (now_number hn strMax).returns (gives_ofNum _) hfuel
  | string ws q =>
    obtain ⟨-, hn, -⟩ := hholds
    exact (now_string hn strMax).returns (gives_text hint hmax) hfuel
  | field ws ws₁ ds =>
    obtain ⟨-, hn, -⟩ := hholds
    obtain ⟨n, hnow⟩ := now_field hn hwhole strMax
    exact hnow.returns (gives_text hint hmax) hfuel
  | name ws n =>
    obtain ⟨-, hn, -⟩ := hholds
    exact (now_name hn strMax).returns (gives_name hint hmax) hfuel
  | length ws =>
    obtain ⟨-, hn, -⟩ := hholds
    exact (now_length hn strMax).returns (gives_ofNum _) hfuel
  | lengthOf ws ws₁ e ws₂ ih =>
    obtain ⟨a, rest, -, hn, harg, rfl⟩ := hholds
    obtain ⟨s, hres, hs⟩ := hint
    obtain ⟨w, hstr, hnow⟩ := now_text e harg hwhole hres strMax
    have hpos := nodes_pos e
    obtain ⟨fuel, rfl⟩ : ∃ f, fuel = f + 2 := ⟨fuel - 2, by simp only [Phrase.nodes, List.length_cons] at hfuel; omega⟩
    refine ⟨_, by rw [eval_length hn, hnow fuel, Option.map_some], ?_⟩
    rw [result, hres]
    exact gives_length hstr hs hmax
  | int ws ws₁ e ws₂ ih =>
    obtain ⟨a, rest, -, hn, harg, -⟩ := hholds
    obtain ⟨fuel, rfl⟩ : ∃ f, fuel = f + 1 := ⟨fuel - 1, by simp only [Phrase.nodes, List.length_cons] at hfuel; omega⟩
    obtain ⟨left, hleft, hgives⟩ := ih harg hwhole hint hsafe hmax (Nat.succ_le_succ_iff.mp hfuel)
    refine ⟨_, by rw [eval_int hn, hleft, Option.map_some], ?_⟩
    rw [result, ← hgives.value]
    exact gives_ofNum _
  | paren ws e ws₂ ih => exact ih hholds hwhole hint hsafe hmax hfuel
  | mulFst e ih | addFst e ih | cmpFst e ih => exact ih hholds hwhole hint hsafe hmax hfuel
  | mul l ws op r ihl ihr =>
    obtain ⟨lp, ls, rp, rs, -, hn, hl, hr, -⟩ := hholds
    obtain ⟨hsl, hsr, ht⟩ := hsafe
    simp only [Phrase.nodes, List.length_append, List.length_singleton] at hfuel
    obtain ⟨fuel, rfl⟩ : ∃ f, fuel = f + 1 := ⟨fuel - 1, by omega⟩
    have hfl : l.nodes.length ≤ fuel := by omega
    have hfr : r.nodes.length ≤ fuel := by omega
    obtain ⟨left, hleft, hgl⟩ := ihl hl hwhole.1 hint.1 hsl le_rfl hfl
    obtain ⟨right, hright, hgr⟩ := ihr hr hwhole.2 hint.2 hsr le_rfl hfr
    rw [← hgl.value, ← hgr.value] at ht
    refine ⟨.ofNum (MulOp.apply op left.toNum right.toNum), ?_, ?_⟩
    · rw [eval_mul hn, binary_eq hleft hright, (arith_mul op _ _).1 ht, Option.map_some]
    · rw [result, ← hgl.value, ← hgr.value]
      exact gives_ofNum _
  | add l ws op r ihl ihr =>
    obtain ⟨lp, ls, rp, rs, -, hn, hl, hr, -⟩ := hholds
    simp only [Phrase.nodes, List.length_append, List.length_singleton] at hfuel
    obtain ⟨fuel, rfl⟩ : ∃ f, fuel = f + 1 := ⟨fuel - 1, by omega⟩
    have hfl : l.nodes.length ≤ fuel := by omega
    have hfr : r.nodes.length ≤ fuel := by omega
    obtain ⟨left, hleft, hgl⟩ := ihl hl hwhole.1 hint.1 hsafe.1 le_rfl hfl
    obtain ⟨right, hright, hgr⟩ := ihr hr hwhole.2 hint.2 hsafe.2 le_rfl hfr
    refine ⟨.ofNum (AddOp.apply op left.toNum right.toNum), ?_, ?_⟩
    · rw [eval_add hn, binary_eq hleft hright, arith_add, Option.map_some]
    · rw [result, ← hgl.value, ← hgr.value]
      exact gives_ofNum _
  | cmp l ws op r ihl ihr =>
    obtain ⟨lp, ls, rp, rs, -, hn, hl, hr, -⟩ := hholds
    obtain ⟨hil, hir, hkind⟩ := hint
    simp only [Phrase.nodes, List.length_append, List.length_singleton] at hfuel
    obtain ⟨fuel, rfl⟩ : ∃ f, fuel = f + 1 := ⟨fuel - 1, by omega⟩
    have hfl : l.nodes.length ≤ fuel := by omega
    have hfr : r.nodes.length ≤ fuel := by omega
    obtain ⟨left, hleft, hgl⟩ := ihl hl hwhole.1 hil hsafe.1 le_rfl hfl
    obtain ⟨right, hright, hgr⟩ := ihr hr hwhole.2 hir hsafe.2 le_rfl hfr
    refine ⟨.ofBool (awkCompare op.type left.toNum right.toNum), ?_, ?_⟩
    · rw [eval_cmp hn, binary_eq hleft hright, not_both_text hgl hgr hkind]
      rfl
    · rw [result, ← hgl.value, ← hgr.value]
      exact gives_cmp op _ _

end Eval

/-! ## Programs -/

/-- A call of `awk_parse_expr` by the parser of statements: the expression in front of which it stands, and the rest of
the program. -/
structure Call where
  expr : Phrase .cmp
  rest : List UInt8
  ends : Ends rest

/-- Where the call starts to read. -/
def Call.input (c : Call) : List UInt8 := c.expr.text ++ c.rest

/-- The calls of a program, one after the other on the same arrays. -/
def awkParseAll : List (List UInt8) → Pools → Option (List Parsed × Pools)
  | [], ps => some ([], ps)
  | input :: inputs, ps => do
    let out ← awkParse input ps
    let r ← awkParseAll inputs out.pools
    some (out :: r.1, r.2)

/-- The nodes a program asks for. -/
def requests (calls : List Call) : List Pool := calls.flatMap fun c => c.expr.nodes

/-- With fuel enough the evaluation of node `p` returns `n`, in every buffer of the evaluator and of its callers. -/
def Evaluates (prog : AwkProgram) (node : Ptr → Node) (p : Ptr) (n : Int32) : Prop :=
  ∀ strMax, 128 ≤ strMax → ∃ enough, ∀ fuel, enough ≤ fuel →
    ∃ v, awkEvalExpr prog node fuel (some p) strMax = some v ∧ v.toNum = n

/-- A call has read its expression to the end; the arrays, as they are now, hold its tree in `slots`; and if it is one
over integers, its evaluation gives the value of the reference. -/
structure IsRead (prog : AwkProgram) (node : Ptr → Node) (c : Call) (out : Parsed) (slots : List Ptr) : Prop where
  rest : out.rest = awkSkipWs c.rest
  tree : c.expr.Holds node out.expr slots
  value : Integer prog c.expr → Evaluates prog node out.expr (result prog c.expr).value

/-- The whole program is read: the arrays in which the last call leaves it hold the trees of all its expressions, and no
node is in them twice. -/
def Reads (prog : AwkProgram) (calls : List Call) (ps : Pools) : Prop :=
  ∃ (outs : List (Parsed × List Ptr)) (ps' : Pools),
    awkParseAll (calls.map Call.input) ps = some (outs.map Prod.fst, ps') ∧
      List.Forall₂ (fun c out => IsRead prog ps'.node c out.1 out.2) calls outs ∧
      (outs.flatMap Prod.snd).Nodup

theorem parseAll_makes (calls : List Call) (hwhole : ∀ c ∈ calls, c.expr.Whole) (ps : Pools)
    (hd : (issue ps.used (requests calls) : List Ptr).Nodup) : ∃ (outs : List (Parsed × List Ptr)) (ps' : Pools),
      awkParseAll (calls.map Call.input) ps = some (outs.map Prod.fst, ps') ∧
        List.Forall₂ (fun c out => out.1.rest = awkSkipWs c.rest ∧ c.expr.Holds ps'.node out.1.expr out.2) calls outs ∧
        outs.flatMap Prod.snd = issue ps.used (requests calls) ∧
        ∀ p ∉ issue ps.used (requests calls), ps'.node p = ps.node p := by
  induction calls generalizing ps with
  | nil => exact ⟨[], ps, rfl, .nil, rfl, fun p _ => rfl⟩
  | cons c calls ih =>
    have hmakes := c.expr.makes
    have hissue : (issue ps.used (requests (c :: calls)) : List Ptr) =
        issue ps.used c.expr.nodes ++ issue (c.expr.build ps).2.used (requests calls) := by
      rw [hmakes.used, ← issue_append]
      rfl
    rw [hissue] at hd ⊢
    obtain ⟨hdc, hdr, hdisj⟩ := List.nodup_append.mp hd
    obtain ⟨outs, ps', hparse, hall, hslots, hframe⟩ :=
      ih (fun d hd => hwhole d (List.mem_cons_of_mem c hd)) (c.expr.build ps).2 hdr
    have hhead := awkParse_phrase c.expr (hwhole c List.mem_cons_self) c.ends ps
    -- the calls behind this one do not touch its nodes
    have hkeep : ∀ q ∈ issue ps.used c.expr.nodes, ps'.node q = (c.expr.build ps).2.node q := fun q hq =>
      hframe q fun hmem => hdisj q hq q hmem rfl
    refine ⟨(⟨(c.expr.build ps).1, awkSkipWs c.rest, (c.expr.build ps).2⟩, issue ps.used c.expr.nodes) :: outs, ps',
      ?_, .cons ⟨rfl, hmakes.congr (hmakes.shaped ps hdc) hkeep⟩ hall, ?_, ?_⟩
    · simp [awkParseAll, Call.input, hhead, hparse]
    · rw [List.flatMap_cons, hslots]
    · intro p hp
      rw [List.mem_append, not_or] at hp
      exact (hframe p hp.2).trans (hmakes.frame ps p hp.1)

theorem Reads.rings {prog : AwkProgram} {node : Ptr → Node} {calls : List Call} {outs : List (Parsed × List Ptr)}
    (h : List.Forall₂ (fun c out => IsRead prog node c out.1 out.2) calls outs) :
    (outs.flatMap Prod.snd).map (·.1) = requests calls := by
  induction h with
  | nil => rfl
  | @cons c out calls outs hread _ ih =>
    rw [List.flatMap_cons, List.map_append, ih, c.expr.makes.rings hread.tree]
    rfl

theorem Reads.whole {prog : AwkProgram} {node : Ptr → Node} {calls : List Call} {outs : List (Parsed × List Ptr)}
    {ps ps' : Pools} (hparse : awkParseAll (calls.map Call.input) ps = some (outs.map Prod.fst, ps'))
    (h : List.Forall₂ (fun c out => IsRead prog node c out.1 out.2) calls outs) : ∀ c ∈ calls, c.expr.Whole := by
  induction h generalizing ps with
  | nil => simp
  | @cons c out calls outs hread _ ih =>
    simp only [List.map_cons, awkParseAll, Option.bind_eq_bind, Option.bind_eq_some_iff] at hparse
    obtain ⟨first, hfirst, others, hothers, heq⟩ := hparse
    simp only [Option.some.injEq, Prod.mk.injEq, List.cons.injEq] at heq
    obtain ⟨⟨rfl, houts⟩, rfl⟩ := heq
    rw [← houts] at ih
    refine List.forall_mem_cons.mpr ⟨?_, ih hothers⟩
    by_contra hwhole
    obtain ⟨stuck, hstuck, hlen⟩ := awkParse_stuck c.expr hwhole c.ends ps
    obtain rfl := Option.some_injective _ (hfirst.symm.trans hstuck)
    rw [hread.rest] at hlen
    exact absurd (length_skipWs_le c.rest) (Nat.not_le_of_lt hlen)

theorem IsRead.safe {prog : AwkProgram} {node : Ptr → Node} {c : Call} {out : Parsed} {slots : List Ptr}
    (h : IsRead prog node c out slots) (hwhole : c.expr.Whole) (hint : Integer prog c.expr) : NoTrap prog c.expr := by
  obtain ⟨enough, heval⟩ := h.value hint 128 le_rfl
  obtain ⟨v, hv, -⟩ := heval enough le_rfl
  exact (eval_sound c.expr h.tree hwhole hint le_rfl hv).1

theorem evaluates_of_holds {prog : AwkProgram} {node : Ptr → Node} {p : Ptr} {slots : List Ptr} (e : Phrase .cmp)
    (hholds : e.Holds node p slots) (hwhole : e.Whole) (hint : Integer prog e) (hsafe : NoTrap prog e) :
    Evaluates prog node p (result prog e).value := by
  intro strMax hmax
  refine ⟨e.nodes.length, fun fuel hfuel => ?_⟩
  obtain ⟨v, hv, hgives⟩ := eval_total e hholds hwhole hint hsafe hmax hfuel
  exact ⟨v, hv, hgives.value⟩

/-- No white space. -/
def noSpace : Space := ⟨[], by simp⟩

/-- A number of one digit. -/
def digit (c : UInt8) (h : awksIsdigit c = true) : Phrase .mul :=
  .mulFst (.number noSpace false ⟨[c], by simp, by simpa using h⟩)

/-- `1+0+0+…` -/
def onePlusZeros : Nat → Phrase .add
  | 0 => .addFst (digit 0x31 rfl)
  | n + 1 => .add (onePlusZeros n) noSpace .add (digit 0x30 rfl)

/-- Nothing is assigned, and there is no record. -/
def noProgram : AwkProgram :=
  { fs := [], ofs := [], rs := [], nr := 0, nf := 0, filename := [], vars := [], awkFields := [] }

end Chicago95.Stage2.AwkPrecedence
