/-
# Chicago95.Stage2.AwkExpr — the expressions of `shell/awk.c`.

The parser is one function for each level of precedence. Every node it makes comes out of a static array, one for each
branch that makes nodes, at an index that only ever counts up and is masked to the size of the array.
⚠ Nothing asks whether the slot is still part of a tree: the sixty-fifth literal of a program is the first one again,
and whatever pointed at that one now reads the new number.
-/
import Chicago95.Lib.SlotRing
import Mathlib.Logic.Function.Basic
import Mathlib.Data.UInt

namespace Chicago95.Stage2.AwkExpr

open Chicago95.Lib.SlotRing

/-! ## Nodes and the arrays they live in -/

/-- `awk_expr_type_t` -/
inductive ExprType
  | field | dollar0 | variable | number | string | add | sub | mul | div | mod | concat | eq | ne | gt | ge | lt | le
  | and | or | not | negate | length | tonum | tostr
  deriving DecidableEq

/-- The static arrays of the parser, by the branch that owns them; `mul` and `add` are the two `bin_pool`s and the six
last ones the `cmp`s. -/
inductive Pool
  | number | string | field | length | int | builtin | var | zero | mul | add | eq | ne | ge | le | gt | lt
  deriving DecidableEq

/-- The length of each array. -/
def Pool.size : Pool → Nat
  | .number | .string | .field | .var | .mul | .add => 64
  | .length | .int | .zero => 16
  | .builtin | .eq | .ne | .ge | .le | .gt | .lt => 32

instance (k : Pool) : NeZero k.size := ⟨by cases k <;> decide⟩

/-- `awk_expr_t *`, never null. -/
abbrev Ptr := Slot Pool.size

/-- `awk_expr_t` -/
structure Node where
  type : ExprType := .field
  numValue : Int32 := 0
  strValue : List UInt8 := []
  fieldIndex : Int32 := 0
  varName : List UInt8 := []
  left : Option Ptr := none
  right : Option Ptr := none
  deriving DecidableEq

/-- The arrays and their indices: `used` is what an `idx` has counted, of which the code only reads the low bits. -/
structure Pools where
  node : Ptr → Node
  used : Pool → Nat

namespace Pools

/-- Before the first program. -/
def start : Pools := { node := fun _ => {}, used := fun _ => 0 }

/-- `&pool[idx & (size - 1)]` -/
def next (ps : Pools) (k : Pool) : Ptr := Lib.SlotRing.next ps.used k

/-- `expr = &pool[idx++ & (size - 1)]` and what is written to it. -/
def store (ps : Pools) (k : Pool) (n : Node) : Pools :=
  { node := Function.update ps.node (ps.next k) n, used := bump ps.used k }

/-- `p->left = q` -/
def setLeft (ps : Pools) (p q : Ptr) : Pools :=
  { ps with node := Function.update ps.node p { ps.node p with left := some q } }

@[simp] theorem store_used (ps : Pools) (k : Pool) (n : Node) : (ps.store k n).used = bump ps.used k := rfl

@[simp] theorem setLeft_used (ps : Pools) (p q : Ptr) : (ps.setLeft p q).used = ps.used := rfl

@[simp] theorem store_node_next (ps : Pools) (k : Pool) (n : Node) : (ps.store k n).node (ps.next k) = n := by
  simp [store]

@[simp] theorem setLeft_node_self (ps : Pools) (p q : Ptr) :
    (ps.setLeft p q).node p = { ps.node p with left := some q } := by
  simp [setLeft]

theorem store_node_of_ne (ps : Pools) {k : Pool} {n : Node} {p : Ptr} (h : p ≠ ps.next k) :
    (ps.store k n).node p = ps.node p := by
  simp [store, h]

theorem setLeft_node_of_ne (ps : Pools) {p q r : Ptr} (h : r ≠ p) : (ps.setLeft p q).node r = ps.node r := by
  simp [setLeft, h]

end Pools

/-! ## Characters and strings -/

def awksIsspace (c : UInt8) : Bool := c == 0x20 || c == 0x09 || c == 0x0A || c == 0x0D

def awksIsdigit (c : UInt8) : Bool := 0x30 ≤ c && c ≤ 0x39

/-- A letter or `_`, what a name begins with. -/
def isNameStart (c : UInt8) : Bool := (0x61 ≤ c && c ≤ 0x7A) || (0x41 ≤ c && c ≤ 0x5A) || c == 0x5F

/-- A letter, a digit or `_`, what a name goes on with. -/
def isNameChar (c : UInt8) : Bool :=
  (0x61 ≤ c && c ≤ 0x7A) || (0x41 ≤ c && c ≤ 0x5A) || (0x30 ≤ c && c ≤ 0x39) || c == 0x5F

/-- `val = val * 10 + (c - '0')` over the digits in front. -/
def digitsValue (s : List UInt8) : Int32 :=
  (s.takeWhile awksIsdigit).foldl (fun val c => val * 10 + Int32.ofNat (c.toNat - 48)) 0

def awksAtoi (s : List UInt8) : Int32 :=
  if s.head? = some 0x2D then -digitsValue (s.drop 1) else digitsValue s

/-- The digits of `awks_itoa`, of which the last is written first. -/
def itoaDigits : Nat → Int32 → List UInt8 → List UInt8
  | 0, _, out => out
  | fuel + 1, val, out =>
    if val = 0 then out else itoaDigits fuel (val / 10) ((48 + val % 10).toUInt32.toUInt8 :: out)

/-- `awks_itoa`, whose `max` the source ignores; 32 bits are ten digits. -/
def awksItoa (val : Int32) : List UInt8 :=
  if val < 0 then 0x2D :: itoaDigits 10 (-val) []
  else if val = 0 then [0x30]
  else itoaDigits 10 val []

def awksStrcpy (src : List UInt8) (max : Nat) : List UInt8 := src.take (max - 1)

/-- `awks_strcmp`, on signed characters. -/
def awksStrcmp : List UInt8 → List UInt8 → Int
  | a :: s, b :: t => if a = b then awksStrcmp s t else a.toInt8.toInt - b.toInt8.toInt
  | [], b :: _ => -b.toInt8.toInt
  | a :: _, [] => a.toInt8.toInt
  | [], [] => 0

/-! ## The scanner -/

def awkSkipWs (input : List UInt8) : List UInt8 := input.dropWhile awksIsspace

def awkPeek (input : List UInt8) : UInt8 := input.headD 0

def awkMatchStr (input s : List UInt8) : Bool := s.isPrefixOf input

/-- `"length"` -/
def kwLength : List UInt8 := [0x6C, 0x65, 0x6E, 0x67, 0x74, 0x68]

/-- `"int"` -/
def kwInt : List UInt8 := [0x69, 0x6E, 0x74]

/-- `awk_parse_number`: the number and what is left. -/
def awkParseNumber (input : List UInt8) : Int32 × List UInt8 :=
  if awkPeek input = 0x2D then (-digitsValue (input.drop 1), (input.drop 1).dropWhile awksIsdigit)
  else (digitsValue input, input.dropWhile awksIsdigit)

/-- What an escape stands for. -/
def escape (c : UInt8) : UInt8 := if c = 0x6E then 0x0A else if c = 0x74 then 0x09 else c

/-- The loop of `awk_parse_string_literal`: the characters, at most `room`, and what is left. -/
def stringLoop (quote : UInt8) : List UInt8 → Nat → List UInt8 × List UInt8
  | [], _ => ([], [])
  | c :: rest, 0 => ([], c :: rest)
  | c :: rest, room + 1 =>
    if c = quote then ([], c :: rest)
    else if c = 0x5C then
      match rest with
      | [] => ([], [])
      | e :: rest => let r := stringLoop quote rest room; (escape e :: r.1, r.2)
    else let r := stringLoop quote rest room; (c :: r.1, r.2)

def awkParseStringLiteral (input : List UInt8) (max : Nat) : List UInt8 × List UInt8 :=
  let r := stringLoop (awkPeek input) (input.drop 1) (max - 1)
  (r.1, r.2.drop 1)

def awkParseName (input : List UInt8) (max : Nat) : List UInt8 × List UInt8 :=
  let name := (input.take (max - 1)).takeWhile isNameChar
  (name, input.drop name.length)

/-- `NR`, `NF`, `FS`, `OFS`, `RS` and `FILENAME`. -/
def builtins : List (List UInt8) :=
  [[0x4E, 0x52], [0x4E, 0x46], [0x46, 0x53], [0x4F, 0x46, 0x53], [0x52, 0x53],
    [0x46, 0x49, 0x4C, 0x45, 0x4E, 0x41, 0x4D, 0x45]]

/-- The array the node of a name goes to. -/
def varPool (name : List UInt8) : Pool := if name ∈ builtins then .builtin else .var

/-! ## The parser -/

/-- What a parser returns: the node, where it stopped and the arrays. -/
structure Parsed where
  expr : Ptr
  rest : List UInt8
  pools : Pools

/-- A function of the parser, none when its fuel runs out. -/
abbrev Parser := List UInt8 → Pools → Option Parsed

/-- `if (awk_peek(st) == ')') st->pos++` behind the white space. -/
def closeParen (input : List UInt8) : List UInt8 :=
  if awkPeek (awkSkipWs input) = 0x29 then (awkSkipWs input).drop 1 else awkSkipWs input

/-- The argument of `length` and `int` in parentheses, when there is one, stored under node `p`. -/
def parseArgument (expr : Parser) (p : Ptr) (input : List UInt8) (ps : Pools) : Option Parsed :=
  if awkPeek input = 0x28 then do
    let arg ← expr (input.drop 1) ps
    some ⟨p, closeParen arg.rest, arg.pools.setLeft p arg.expr⟩
  else some ⟨p, input, ps⟩

/-- `awk_parse_primary`, `expr` being `awk_parse_expr`. -/
def awkParsePrimary (expr : Parser) : Parser := fun input ps =>
  let input := awkSkipWs input
  if awksIsdigit (awkPeek input) || (awkPeek input == 0x2D && awksIsdigit (awkPeek (input.drop 1))) then
    let number := awkParseNumber input
    some ⟨ps.next .number, number.2, ps.store .number { type := .number, numValue := number.1 }⟩
  else if awkPeek input = 0x22 ∨ awkPeek input = 0x27 then
    let string := awkParseStringLiteral input 64
    some ⟨ps.next .string, string.2, ps.store .string { type := .string, strValue := string.1 }⟩
  else if awkPeek input = 0x24 then
    let input := awkSkipWs (input.drop 1)
    if awkPeek input = 0x30 then some ⟨ps.next .field, input.drop 1, ps.store .field { type := .dollar0 }⟩
    else if awksIsdigit (awkPeek input) then
      let number := awkParseNumber input
      some ⟨ps.next .field, number.2, ps.store .field { type := .field, fieldIndex := number.1 }⟩
    else some ⟨ps.next .field, input, ps.store .field { type := .field, fieldIndex := 1 }⟩
  else if awkPeek input = 0x28 then do
    let inner ← expr (awkSkipWs (input.drop 1)) ps
    some { inner with rest := closeParen inner.rest }
  else if awkMatchStr input kwLength then
    parseArgument expr (ps.next .length) (awkSkipWs (input.drop 6)) (ps.store .length { type := .length })
  else if awkMatchStr input kwInt then
    parseArgument expr (ps.next .int) (awkSkipWs (input.drop 3)) (ps.store .int { type := .tonum })
  else if isNameStart (awkPeek input) then
    let name := awkParseName input 32
    some ⟨ps.next (varPool name.1), name.2, ps.store (varPool name.1) { type := .variable, varName := name.1 }⟩
  else some ⟨ps.next .zero, input, ps.store .zero { type := .number }⟩

/-- The loop of `awk_parse_mul` and `awk_parse_add`, in front of a character that may be an operator. -/
def binLoop (pool : Pool) (op : UInt8 → Option ExprType) (operand : Parser) : Nat → Ptr → Parser
  | 0, _, _, _ => none
  | fuel + 1, left, input, ps =>
    match op (awkPeek input) with
    | none => some ⟨left, input, ps⟩
    | some type => do
      let right ← operand (awkSkipWs (input.drop 1)) ps
      binLoop pool op operand fuel (right.pools.next pool) (awkSkipWs right.rest)
        (right.pools.store pool { type := type, left := some left, right := some right.expr })

/-- `*`, `/`, `%` -/
def mulType (c : UInt8) : Option ExprType :=
  if c = 0x2A then some .mul else if c = 0x2F then some .div else if c = 0x25 then some .mod else none

/-- `+`, `-` -/
def addType (c : UInt8) : Option ExprType :=
  if c = 0x2B then some .add else if c = 0x2D then some .sub else none

/-- `awk_parse_mul`; the loop reads a character a turn. -/
def awkParseMul (expr : Parser) : Parser := fun input ps => do
  let left ← awkParsePrimary expr input ps
  let rest := awkSkipWs left.rest
  binLoop .mul mulType (awkParsePrimary expr) (rest.length + 1) left.expr rest left.pools

def awkParseAdd (expr : Parser) : Parser := fun input ps => do
  let left ← awkParseMul expr input ps
  let rest := awkSkipWs left.rest
  binLoop .add addType (awkParseMul expr) (rest.length + 1) left.expr rest left.pools

/-- The comparison in front: its type, its array and its length. -/
def cmpType (input : List UInt8) : Option (ExprType × Pool × Nat) :=
  if awkMatchStr input [0x3D, 0x3D] then some (.eq, .eq, 2)
  else if awkMatchStr input [0x21, 0x3D] then some (.ne, .ne, 2)
  else if awkMatchStr input [0x3E, 0x3D] then some (.ge, .ge, 2)
  else if awkMatchStr input [0x3C, 0x3D] then some (.le, .le, 2)
  else if awkPeek input = 0x3E then some (.gt, .gt, 1)
  else if awkPeek input = 0x3C then some (.lt, .lt, 1)
  else none

def awkParseCmp (expr : Parser) : Parser := fun input ps => do
  let left ← awkParseAdd expr input ps
  let rest := awkSkipWs left.rest
  match cmpType rest with
  | none => some { left with rest := rest }
  | some (type, pool, len) => do
    let right ← awkParseAdd expr (awkSkipWs (rest.drop len)) left.pools
    some ⟨right.pools.next pool, right.rest,
      right.pools.store pool { type := type, left := some left.expr, right := some right.expr }⟩

/-- `awk_parse_expr`, that many calls deep. -/
def awkParseExpr : Nat → Parser
  | 0 => fun _ _ => none
  | fuel + 1 => awkParseCmp (awkParseExpr fuel)

/-- A call of `awk_parse_expr` by the parser of statements: every call inside it is behind a parenthesis of its own. -/
def awkParse (input : List UInt8) (ps : Pools) : Option Parsed := awkParseExpr (input.length + 1) input ps

/-! ## The evaluator -/

/-- An entry of `vars` -/
structure AwkVar where
  name : List UInt8
  strVal : List UInt8
  numVal : Int32
  isNum : Bool

/-- What the evaluator reads of `awk_program_t`, and the fields of the record. -/
structure AwkProgram where
  fs : List UInt8
  ofs : List UInt8
  rs : List UInt8
  nr : Int32
  nf : Int32
  filename : List UInt8
  vars : List AwkVar
  awkFields : List (List UInt8)

/-- `"NR"` -/
def nrName : List UInt8 := [0x4E, 0x52]
/-- `"NF"` -/
def nfName : List UInt8 := [0x4E, 0x46]
/-- `"FNR"` -/
def fnrName : List UInt8 := [0x46, 0x4E, 0x52]
/-- `"FS"` -/
def fsName : List UInt8 := [0x46, 0x53]
/-- `"OFS"` -/
def ofsName : List UInt8 := [0x4F, 0x46, 0x53]
/-- `"RS"` -/
def rsName : List UInt8 := [0x52, 0x53]
/-- `"FILENAME"` -/
def filenameName : List UInt8 := [0x46, 0x49, 0x4C, 0x45, 0x4E, 0x41, 0x4D, 0x45]

/-- The entry of a name, the first one. -/
def AwkProgram.find (prog : AwkProgram) (name : List UInt8) : Option AwkVar := prog.vars.find? (·.name == name)

def awkVarGetNum (prog : AwkProgram) (name : List UInt8) : Int32 :=
  if name = nrName then prog.nr
  else if name = nfName then prog.nf
  else if name = fnrName then prog.nr
  else ((prog.find name).map (·.numVal)).getD 0

def awkVarGetStr (prog : AwkProgram) (name : List UInt8) : List UInt8 :=
  if name = nrName then awksItoa prog.nr
  else if name = nfName then awksItoa prog.nf
  else if name = fsName then prog.fs
  else if name = ofsName then prog.ofs
  else if name = rsName then prog.rs
  else if name = filenameName then prog.filename
  else ((prog.find name).map (·.strVal)).getD []

def awkVarIsNum (prog : AwkProgram) (name : List UInt8) : Bool :=
  if name = nrName then true
  else if name = nfName then true
  else ((prog.find name).map (·.isNum)).getD false

def awkGetField (prog : AwkProgram) (index : Int32) : List UInt8 :=
  if index < 0 ∨ prog.nf < index then [] else prog.awkFields.getD index.toNatClampNeg []

/-- What an evaluation leaves in `str_out`, `num_out` and `is_num_out`. -/
structure Value where
  str : List UInt8
  num : Int32
  isNum : Bool
  deriving DecidableEq

/-- `if (!is_num) num = awks_atoi(str)` -/
def Value.toNum (v : Value) : Int32 := if v.isNum then v.num else awksAtoi v.str

/-- A number with its digits. -/
def Value.ofNum (n : Int32) : Value := { str := awksItoa n, num := n, isNum := true }

/-- The answer to a question: `str_out[0] = *num_out ? '1' : '0'`. -/
def Value.ofBool (b : Bool) : Value :=
  { str := [if b then 0x31 else 0x30], num := if b then 1 else 0, isNum := true }

/-- `a / b` or `a % b` of the processor, which traps at the one quotient that does not fit. -/
def divide (f : Int32 → Int32 → Int32) (a b : Int32) : Option Int32 :=
  if a = Int32.minValue ∧ b = -1 then none else some (f a b)

/-- The arithmetic of the binary operations. -/
def awkArith (type : ExprType) (a b : Int32) : Option Int32 :=
  match type with
  | .add => some (a + b)
  | .sub => some (a - b)
  | .mul => some (a * b)
  | .div => if b ≠ 0 then divide (· / ·) a b else some 0
  | _ => if b ≠ 0 then divide (· % ·) a b else some 0

/-- The comparisons, of numbers and of the outcome of `awks_strcmp` with 0. -/
def awkCompare {α : Type} [DecidableEq α] [LT α] [LE α] [DecidableLT α] [DecidableLE α] (type : ExprType) (a b : α) :
    Bool :=
  match type with
  | .eq => a = b
  | .ne => a ≠ b
  | .gt => a > b
  | .ge => a ≥ b
  | .lt => a < b
  | _ => a ≤ b

/-- `case AWK_EXPR_VARIABLE` -/
def evalVariable (prog : AwkProgram) (name : List UInt8) (strMax : Nat) : Value :=
  if name = nrName then .ofNum prog.nr
  else if name = nfName then .ofNum prog.nf
  else if name = fsName then { str := awksStrcpy prog.fs strMax, num := 0, isNum := false }
  else if name = ofsName then { str := awksStrcpy prog.ofs strMax, num := 0, isNum := false }
  else if name = filenameName then { str := awksStrcpy prog.filename strMax, num := 0, isNum := false }
  else
    { str := awksStrcpy (awkVarGetStr prog name) strMax, num := awkVarGetNum prog name,
      isNum := awkVarIsNum prog name }

/-- `case AWK_EXPR_CONCAT` -/
def concat (l r : List UInt8) (strMax : Nat) : Value :=
  let s := awksStrcpy l strMax
  { str := s ++ r.take (strMax - s.length - 1), num := 0, isNum := false }

/-- `awk_eval_expr`, that many calls deep; none also where the division traps. -/
def awkEvalExpr (prog : AwkProgram) (node : Ptr → Node) : Nat → Option Ptr → Nat → Option Value
  | 0, _, _ => none
  | _ + 1, none, _ => some { str := [], num := 0, isNum := true }
  | fuel + 1, some p, strMax =>
    let expr := node p
    match expr.type with
    | .number => some (.ofNum expr.numValue)
    | .string => some { str := awksStrcpy expr.strValue strMax, num := awksAtoi expr.strValue, isNum := false }
    | .field =>
      let str := awksStrcpy (awkGetField prog expr.fieldIndex) strMax
      some { str := str, num := awksAtoi str, isNum := false }
    | .dollar0 =>
      let str := awksStrcpy (awkGetField prog 0) strMax
      some { str := str, num := awksAtoi str, isNum := false }
    | .variable => some (evalVariable prog expr.varName strMax)
    | .length =>
      if expr.left.isSome then do
        let left ← awkEvalExpr prog node fuel expr.left strMax
        some { left with num := Int32.ofNat left.str.length, isNum := true }
      else some (.ofNum (Int32.ofNat (awkGetField prog 0).length))
    | .tonum => do
      let left ← awkEvalExpr prog node fuel expr.left strMax
      some (.ofNum left.toNum)
    | .add | .sub | .mul | .div | .mod => do
      let left ← awkEvalExpr prog node fuel expr.left 128
      let right ← awkEvalExpr prog node fuel expr.right 128
      let num ← awkArith expr.type left.toNum right.toNum
      some (.ofNum num)
    | .concat => do
      let left ← awkEvalExpr prog node fuel expr.left 128
      let right ← awkEvalExpr prog node fuel expr.right 128
      some (concat left.str right.str strMax)
    | .eq | .ne | .gt | .ge | .lt | .le => do
      let left ← awkEvalExpr prog node fuel expr.left 128
      let right ← awkEvalExpr prog node fuel expr.right 128
      if !left.isNum && !right.isNum then
        some (.ofBool (awkCompare expr.type (awksStrcmp left.str right.str) 0))
      else some (.ofBool (awkCompare expr.type left.toNum right.toNum))
    | .and => do
      let left ← awkEvalExpr prog node fuel expr.left 128
      let right ← awkEvalExpr prog node fuel expr.right 128
      some (.ofBool (left.num ≠ 0 && right.num ≠ 0))
    | .or => do
      let left ← awkEvalExpr prog node fuel expr.left 128
      let right ← awkEvalExpr prog node fuel expr.right 128
      some (.ofBool (left.num ≠ 0 || right.num ≠ 0))
    | .not => do
      let left ← awkEvalExpr prog node fuel expr.left 128
      some (.ofBool (left.num = 0))
    | .negate => do
      let left ← awkEvalExpr prog node fuel expr.left 128
      some (.ofNum (-left.num))
    | .tostr => some { str := [], num := 0, isNum := true }

theorem fuel_pos {prog : AwkProgram} {node : Ptr → Node} {p : Option Ptr} {strMax fuel : Nat} {v : Value}
    (hv : awkEvalExpr prog node fuel p strMax = some v) : ∃ f, fuel = f + 1 := by
  cases fuel with
  | zero => exact absurd hv (by simp [awkEvalExpr])
  | succ fuel => exact ⟨fuel, rfl⟩

end Chicago95.Stage2.AwkExpr
