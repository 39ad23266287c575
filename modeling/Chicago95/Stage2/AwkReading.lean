/-
# Chicago95.Stage2.AwkReading — the parser of `shell/awk.c` reads the grammar.

`phrase_reads` is the round trip: in front of anything that cannot go on with it, the text of a phrase is read to its
end and leaves exactly the stores of `Phrase.build`, at every level of precedence. The chains of operators are read by a
loop, so at those levels the statement is about the state of the loop behind the phrase.
-/
import Chicago95.Stage2.AwkTrees

namespace Chicago95.Stage2.AwkReading

open Chicago95.Stage2.AwkExpr
open Chicago95.Stage2.AwkTrees

/-! ## The parser never runs out of fuel -/

/-- The parser returns on every input shorter than `n`, and what it leaves is no longer than the input. -/
def Returns (n : Nat) (p : Parser) : Prop :=
  ∀ input ps, input.length < n → ∃ out, p input ps = some out ∧ out.rest.length ≤ input.length

theorem length_skipWs_le (input : List UInt8) : (awkSkipWs input).length ≤ input.length :=
  (List.dropWhile_sublist _).length_le

/-! ## Characters -/

theorem nameChar_of_digit {c : UInt8} (h : awksIsdigit c = true) : isNameChar c = true := by
  simp_all [isNameChar, awksIsdigit]

theorem nameChar_of_nameStart {c : UInt8} (h : isNameStart c = true) : isNameChar c = true := by
  simp only [isNameStart, isNameChar, Bool.or_eq_true] at h ⊢
  tauto

theorem nameStart_not_digit {c : UInt8} (h : isNameStart c = true) : awksIsdigit c = false := by
  simp only [isNameStart, awksIsdigit, Bool.or_eq_true, Bool.and_eq_true, decide_eq_true_eq, beq_iff_eq,
    Bool.and_eq_false_iff, decide_eq_false_iff_not] at *
  grind

theorem nameChar_not_space {c : UInt8} (h : isNameChar c = true) : awksIsspace c = false := by
  have hne (d : UInt8) (hd : isNameChar d = false) : c ≠ d := by
    rintro rfl
    exact Bool.false_ne_true (hd.symm.trans h)
  simp [awksIsspace, hne 0x20 (by decide), hne 0x09 (by decide), hne 0x0A (by decide), hne 0x0D (by decide)]

theorem ne_of_nameChar {c d : UInt8} (h : isNameChar c = true) (hd : isNameChar d = false) : c ≠ d := by
  rintro rfl
  exact Bool.false_ne_true (hd.symm.trans h)

/-! ## White space -/

@[simp] theorem peek_cons (c : UInt8) (s : List UInt8) : awkPeek (c :: s) = c := rfl

theorem skipWs_space (ws : Space) (s : List UInt8) : awkSkipWs (ws.1 ++ s) = awkSkipWs s :=
  List.dropWhile_append_of_pos ws.2

theorem skipWs_cons {c : UInt8} (h : awksIsspace c = false) (s : List UInt8) : awkSkipWs (c :: s) = c :: s := by
  simp [awkSkipWs, h]

theorem skipWs_skipWs (s : List UInt8) : awkSkipWs (awkSkipWs s) = awkSkipWs s := by
  induction s with
  | nil => rfl
  | cons c s ih =>
    by_cases h : awksIsspace c = true
    · simpa [awkSkipWs, h] using ih
    · simp [awkSkipWs, h]

/-! ## What may follow a phrase -/

/-- Nothing here goes on with a number, with a name or with `length`. -/
def Clear (rest : List UInt8) : Prop := isNameChar (awkPeek rest) = false ∧ awkPeek (awkSkipWs rest) ≠ 0x28

/-- Nothing here goes on with an expression. -/
def Ends (rest : List UInt8) : Prop :=
  Clear rest ∧ mulType (awkPeek (awkSkipWs rest)) = none ∧ addType (awkPeek (awkSkipWs rest)) = none ∧
    cmpType (awkSkipWs rest) = none

theorem clear_space (ws : Space) {c : UInt8} (s : List UInt8) (hc : isNameChar c = false)
    (hs : awksIsspace c = false) (hp : c ≠ 0x28) : Clear (ws.1 ++ c :: s) := by
  refine ⟨?_, by rwa [skipWs_space, skipWs_cons hs, peek_cons]⟩
  obtain ⟨ws, hws⟩ := ws
  cases ws with
  | nil => exact hc
  | cons d ws =>
    have hd := hws d List.mem_cons_self
    by_contra h
    rw [Bool.not_eq_false] at h
    exact Bool.false_ne_true ((nameChar_not_space h).symm.trans hd)

/-! ## The tokens -/

theorem takeWhile_clear {p : UInt8 → Bool} {s rest : List UInt8} (hs : ∀ c ∈ s, p c = true)
    (hr : p (awkPeek rest) = false) : (s ++ rest).takeWhile p = s := by
  rw [List.takeWhile_append_of_pos hs]
  cases rest with
  | nil => simp
  | cons c rest =>
    have hc : p c = false := hr
    simp [hc]

theorem dropWhile_clear {p : UInt8 → Bool} {s rest : List UInt8} (hs : ∀ c ∈ s, p c = true)
    (hr : p (awkPeek rest) = false) : (s ++ rest).dropWhile p = rest := by
  rw [List.dropWhile_append_of_pos hs]
  cases rest with
  | nil => rfl
  | cons c rest =>
    have hc : p c = false := hr
    simp [hc]

theorem digit_clear {rest : List UInt8} (h : isNameChar (awkPeek rest) = false) :
    awksIsdigit (awkPeek rest) = false := by
  by_contra hd
  rw [Bool.not_eq_false] at hd
  exact Bool.false_ne_true (h.symm.trans (nameChar_of_digit hd))

theorem foldl_decimal (ds : List UInt8) (n : Nat) :
    ds.foldl (fun val c => val * 10 + Int32.ofNat (c.toNat - 48)) (Int32.ofNat n) =
      Int32.ofNat (ds.foldl (fun n c => n * 10 + (c.toNat - 48)) n) := by
  induction ds generalizing n with
  | nil => rfl
  | cons c ds ih =>
    have h : Int32.ofNat n * 10 + Int32.ofNat (c.toNat - 48) = Int32.ofNat (n * 10 + (c.toNat - 48)) := by
      rw [Int32.ofNat_add, Int32.ofNat_mul]
      rfl
    rw [List.foldl_cons, List.foldl_cons, h, ih]

theorem digitsValue_append (ds : Digits) {rest : List UInt8} (h : isNameChar (awkPeek rest) = false) :
    digitsValue (ds.1 ++ rest) = Int32.ofNat (decimal ds.1) := by
  rw [digitsValue, takeWhile_clear ds.2.2 (digit_clear h)]
  exact foldl_decimal ds.1 0

theorem Digits.peek_append (ds : Digits) (rest : List UInt8) :
    awkPeek (ds.1 ++ rest) = awkPeek ds.1 ∧ awksIsdigit (awkPeek ds.1) = true := by
  obtain ⟨ds, hne, hds⟩ := ds
  cases ds with
  | nil => exact absurd rfl hne
  | cons d ds => exact ⟨rfl, hds d List.mem_cons_self⟩

theorem Name.peek_append (n : Name) (rest : List UInt8) : awkPeek (n.1 ++ rest) = awkPeek n.1 := by
  cases hn : n.1 with
  | nil => exact absurd n.2.1 (by simp [hn, awkPeek, isNameStart])
  | cons c t => rfl

theorem parseNumber_append (neg : Bool) (ds : Digits) {rest : List UInt8} (h : isNameChar (awkPeek rest) = false) :
    awkParseNumber ((if neg then [0x2D] else []) ++ (ds.1 ++ rest)) = (numberOf neg ds, rest) := by
  have hdrop : (ds.1 ++ rest).dropWhile awksIsdigit = rest := dropWhile_clear ds.2.2 (digit_clear h)
  cases neg with
  | true => simp [awkParseNumber, numberOf, digitsValue_append ds h, hdrop]
  | false =>
    obtain ⟨hpeek, hdigit⟩ := Digits.peek_append ds rest
    have hne : awkPeek ds.1 ≠ 0x2D := by
      intro heq
      rw [heq] at hdigit
      exact absurd hdigit (by decide)
    simp [awkParseNumber, numberOf, digitsValue_append ds h, hdrop, hpeek, hne]

theorem stringLoop_quote (quote : UInt8) (rest : List UInt8) (room : Nat) :
    stringLoop quote (quote :: rest) room = ([], quote :: rest) := by
  cases room with
  | zero => rfl
  | succ room => rw [stringLoop.eq_def]; simp

theorem stringLoop_plain {quote c : UInt8} (hc : c ≠ quote) (hb : c ≠ 0x5C) (rest : List UInt8) (room : Nat) :
    stringLoop quote (c :: rest) (room + 1) =
      (c :: (stringLoop quote rest room).1, (stringLoop quote rest room).2) := by
  rw [stringLoop.eq_def]
  simp [hc, hb]

theorem stringLoop_append {quote : UInt8} {chars : List (Bool × UInt8)}
    (hplain : ∀ c ∈ chars, c.1 = false → c.2 ≠ quote ∧ c.2 ≠ 0x5C) (hquote : quote ≠ 0x5C) {room : Nat}
    (hroom : chars.length ≤ room) (rest : List UInt8) :
    stringLoop quote (chars.flatMap charText ++ quote :: rest) room = (chars.map charMeant, quote :: rest) := by
  induction chars generalizing room with
  | nil => exact stringLoop_quote quote rest room
  | cons c chars ih =>
    obtain ⟨room, rfl⟩ : ∃ r, room = r + 1 := ⟨room - 1, by simp only [List.length_cons] at hroom; omega⟩
    have ih := ih (fun d hd => hplain d (List.mem_cons_of_mem c hd)) (Nat.succ_le_succ_iff.mp hroom)
    obtain ⟨escaped, c⟩ := c
    cases escaped with
    | true => simp [charText, charMeant, stringLoop, hquote.symm, ih]
    | false =>
      obtain ⟨hc, hb⟩ := hplain (false, c) List.mem_cons_self rfl
      simp [charText, charMeant, stringLoop_plain hc hb, ih]

theorem Literal.quote_ne (q : Literal) : q.quote ≠ 0x5C := by
  rcases q.quote_mark with h | h <;> rw [h] <;> decide

theorem parseStringLiteral_append (q : Literal) (rest : List UInt8) :
    awkParseStringLiteral (q.text ++ rest) 64 = (q.meant, rest) := by
  have h := stringLoop_append q.plain (Literal.quote_ne q) q.fits rest
  simp [awkParseStringLiteral, Literal.text, Literal.meant, h]

theorem parseName_append {n rest : List UInt8} (hn : ∀ c ∈ n, isNameChar c = true) (hlen : n.length ≤ 31)
    (hr : isNameChar (awkPeek rest) = false) : awkParseName (n ++ rest) 32 = (n, rest) := by
  have htake : (n ++ rest).take 31 = n ++ rest.take (31 - n.length) := by
    rw [List.take_append, List.take_of_length_le hlen]
  have hclear : isNameChar (awkPeek (rest.take (31 - n.length))) = false := by
    cases rest with
    | nil => simpa using hr
    | cons c rest =>
      cases 31 - n.length with
      | zero => rfl
      | succ m => exact hr
  simp only [awkParseName, Nat.add_one_sub_one, htake, takeWhile_clear hn hclear, List.drop_left]

theorem matchStr_append {kw n rest : List UInt8} (hkw : ∀ c ∈ kw, isNameChar c = true)
    (hr : isNameChar (awkPeek rest) = false) : awkMatchStr (n ++ rest) kw = true ↔ kw <+: n := by
  rw [awkMatchStr, List.isPrefixOf_iff_prefix]
  constructor
  · intro h
    rcases List.prefix_or_prefix_of_prefix h (List.prefix_append n rest) with h | ⟨t, rfl⟩
    · exact h
    · rw [List.prefix_append_right_inj] at h
      cases t with
      | nil => simp
      | cons c t =>
        obtain ⟨u, rfl⟩ := h
        have hc : isNameChar c = false := hr
        exact absurd (hkw c (by simp)) (by simp [hc])
  · exact fun h => h.trans (List.prefix_append n rest)

/-! ## Primaries -/

section Primary

variable (expr : Parser)

theorem primary_space (ws : Space) (s : List UInt8) (ps : Pools) :
    awkParsePrimary expr (ws.1 ++ s) ps = awkParsePrimary expr s ps := by
  simp only [awkParsePrimary, skipWs_space]

theorem primary_skipWs (s : List UInt8) (ps : Pools) :
    awkParsePrimary expr (awkSkipWs s) ps = awkParsePrimary expr s ps := by
  simp only [awkParsePrimary, skipWs_skipWs]

theorem primary_number (neg : Bool) (ds : Digits) {rest : List UInt8} (h : isNameChar (awkPeek rest) = false)
    (ps : Pools) :
    awkParsePrimary expr ((if neg then [0x2D] else []) ++ (ds.1 ++ rest)) ps =
      some ⟨ps.next .number, rest, ps.store .number { type := .number, numValue := numberOf neg ds }⟩ := by
  obtain ⟨hpeek, hdigit⟩ := Digits.peek_append ds rest
  rw [← hpeek] at hdigit
  have hskip : awkSkipWs ((if neg then [0x2D] else []) ++ (ds.1 ++ rest)) =
      (if neg then [0x2D] else []) ++ (ds.1 ++ rest) := by
    cases neg with
    | true => exact skipWs_cons (by decide) _
    | false =>
      cases hs : ds.1 ++ rest with
      | nil => rfl
      | cons c s =>
        rw [hs, peek_cons] at hdigit
        exact skipWs_cons (nameChar_not_space (nameChar_of_digit hdigit)) s
  have hfirst : (awksIsdigit (awkPeek ((if neg then [0x2D] else []) ++ (ds.1 ++ rest))) ||
      (awkPeek ((if neg then [0x2D] else []) ++ (ds.1 ++ rest)) == 0x2D &&
        awksIsdigit (awkPeek (((if neg then [0x2D] else []) ++ (ds.1 ++ rest)).drop 1)))) = true := by
    cases neg <;> simp [hdigit]
  simp only [awkParsePrimary, hskip, hfirst, parseNumber_append neg ds h, if_true]

theorem primary_string (q : Literal) (rest : List UInt8) (ps : Pools) :
    awkParsePrimary expr (q.text ++ rest) ps =
      some ⟨ps.next .string, rest, ps.store .string { type := .string, strValue := q.meant }⟩ := by
  have hlit := parseStringLiteral_append q rest
  obtain ⟨s, hs⟩ : ∃ s, q.text ++ rest = q.quote :: s := ⟨_, rfl⟩
  rw [hs] at hlit ⊢
  rcases q.quote_mark with h | h <;> rw [h] at hlit ⊢ <;>
    simp [awkParsePrimary, skipWs_cons, awksIsspace, awksIsdigit, hlit]

theorem primary_field (ws : Space) (ds : Digits) {rest : List UInt8} (h : isNameChar (awkPeek rest) = false)
    (ps : Pools) : awkParsePrimary expr (0x24 :: (ws.1 ++ (ds.1 ++ rest))) ps =
      some ⟨ps.next .field, if awkPeek ds.1 = 0x30 then ds.1.drop 1 ++ rest else rest,
        ps.store .field (fieldNode ds)⟩ := by
  obtain ⟨hpeek, hdigit⟩ := Digits.peek_append ds rest
  obtain ⟨c, t, hct⟩ : ∃ c t, ds.1 = c :: t := List.exists_cons_of_ne_nil ds.2.1
  have hc : awksIsdigit c = true := by simpa [hct] using hdigit
  have hskip : awkSkipWs (ds.1 ++ rest) = ds.1 ++ rest := by
    rw [hct]
    exact skipWs_cons (nameChar_not_space (nameChar_of_digit hc)) _
  have hnumber : awkParseNumber (ds.1 ++ rest) = (numberOf false ds, rest) := parseNumber_append false ds h
  have hdrop : (ds.1 ++ rest).drop 1 = ds.1.drop 1 ++ rest := by rw [hct]; rfl
  have hdollar : awksIsdigit 0x24 = false := by decide
  have hspace : awksIsspace 0x24 = false := by decide
  by_cases h0 : awkPeek ds.1 = 0x30
  · simp [awkParsePrimary, skipWs_cons hspace, hdollar, skipWs_space, hskip, hpeek, h0, hdrop, fieldNode]
  · simp [awkParsePrimary, skipWs_cons hspace, hdollar, skipWs_space, hskip, hpeek, h0, hdigit, hnumber, fieldNode,
      numberOf]

theorem primary_length (s : List UInt8) (ps : Pools) :
    awkParsePrimary expr (kwLength ++ s) ps =
      parseArgument expr (ps.next .length) (awkSkipWs s) (ps.store .length { type := .length }) := by
  have hspace : awksIsspace 0x6C = false := by decide
  have hdigit : awksIsdigit 0x6C = false := by decide
  simp [awkParsePrimary, kwLength, skipWs_cons hspace, hdigit, awkMatchStr]

theorem primary_int (s : List UInt8) (ps : Pools) :
    awkParsePrimary expr (kwInt ++ s) ps =
      parseArgument expr (ps.next .int) (awkSkipWs s) (ps.store .int { type := .tonum }) := by
  have hspace : awksIsspace 0x69 = false := by decide
  have hdigit : awksIsdigit 0x69 = false := by decide
  simp [awkParsePrimary, kwInt, kwLength, skipWs_cons hspace, hdigit, awkMatchStr]

theorem primary_paren (s : List UInt8) (ps : Pools) :
    awkParsePrimary expr (0x28 :: s) ps =
      (expr (awkSkipWs s) ps).map fun inner => { inner with rest := closeParen inner.rest } := by
  have hspace : awksIsspace 0x28 = false := by decide
  have hdigit : awksIsdigit 0x28 = false := by decide
  simp [awkParsePrimary, skipWs_cons hspace, hdigit, Option.map_eq_bind]

theorem argument_paren (p : Ptr) (s : List UInt8) (ps : Pools) : parseArgument expr p (0x28 :: s) ps =
      (expr s ps).map fun arg => ⟨p, closeParen arg.rest, arg.pools.setLeft p arg.expr⟩ := by
  simp [parseArgument, Option.map_eq_bind]

theorem primary_name {s : List UInt8} (hstart : isNameStart (awkPeek s) = true)
    (hlength : awkMatchStr s kwLength = false) (hint : awkMatchStr s kwInt = false) (ps : Pools) :
    awkParsePrimary expr s ps =
      some ⟨ps.next (varPool (awkParseName s 32).1), (awkParseName s 32).2,
        ps.store (varPool (awkParseName s 32).1) { type := .variable, varName := (awkParseName s 32).1 }⟩ := by
  obtain ⟨c, t, rfl⟩ : ∃ c t, s = c :: t := by
    refine List.exists_cons_of_ne_nil ?_
    rintro rfl
    exact absurd hstart (by decide)
  have hstart : isNameStart c = true := hstart
  have hc := nameChar_of_nameStart hstart
  simp [awkParsePrimary, skipWs_cons (nameChar_not_space hc), nameStart_not_digit hstart, hlength, hint, hstart,
    ne_of_nameChar hc (show isNameChar 0x2D = false by decide), ne_of_nameChar hc (show isNameChar 0x22 = false by decide),
    ne_of_nameChar hc (show isNameChar 0x27 = false by decide), ne_of_nameChar hc (show isNameChar 0x24 = false by decide),
    ne_of_nameChar hc (show isNameChar 0x28 = false by decide)]

theorem nameChar_keyword {c : UInt8} (h : c ∈ kwLength ++ kwInt) : isNameChar c = true :=
  List.all_eq_true.mp (show (kwLength ++ kwInt).all isNameChar = true from rfl) c h

theorem primary_whole_name (n : Name) {rest : List UInt8} (hlen : n.1.length ≤ 31) (hlength : ¬kwLength <+: n.1)
    (hint : ¬kwInt <+: n.1) (h : isNameChar (awkPeek rest) = false) (ps : Pools) :
    awkParsePrimary expr (n.1 ++ rest) ps =
      some ⟨ps.next (varPool n.1), rest, ps.store (varPool n.1) { type := .variable, varName := n.1 }⟩ := by
  have hl : awkMatchStr (n.1 ++ rest) kwLength = false := by
    rw [← Bool.not_eq_true, matchStr_append (fun c hc => nameChar_keyword (List.mem_append_left _ hc)) h]
    exact hlength
  have hi : awkMatchStr (n.1 ++ rest) kwInt = false := by
    rw [← Bool.not_eq_true, matchStr_append (fun c hc => nameChar_keyword (List.mem_append_right _ hc)) h]
    exact hint
  rw [primary_name expr ((Name.peek_append n rest).symm ▸ n.2.1) hl hi, parseName_append n.2.2.1 hlen h]

end Primary

/-! ## The levels -/

section Levels

variable {expr : Parser}

theorem mul_skipWs (s : List UInt8) (ps : Pools) : awkParseMul expr (awkSkipWs s) ps = awkParseMul expr s ps := by
  simp only [awkParseMul, primary_skipWs]

theorem add_skipWs (s : List UInt8) (ps : Pools) : awkParseAdd expr (awkSkipWs s) ps = awkParseAdd expr s ps := by
  simp only [awkParseAdd, mul_skipWs]

theorem cmp_skipWs (s : List UInt8) (ps : Pools) : awkParseCmp expr (awkSkipWs s) ps = awkParseCmp expr s ps := by
  simp only [awkParseCmp, add_skipWs]

/-- The function is in its loop, in front of `rest`, with `at` as the tree so far and turns left for all of it. -/
def AtLoop (pool : Pool) (op : UInt8 → Option ExprType) (operand : Parser) (rest : List UInt8) (tree : Ptr × Pools)
    (result : Option Parsed) : Prop :=
  ∃ fuel, (awkSkipWs rest).length < fuel ∧ result = binLoop pool op operand fuel tree.1 (awkSkipWs rest) tree.2

variable {pool : Pool} {op : UInt8 → Option ExprType} {operand : Parser} {rest : List UInt8} {tree : Ptr × Pools}
  {result : Option Parsed}

theorem AtLoop.ends (h : AtLoop pool op operand rest tree result) (hop : op (awkPeek (awkSkipWs rest)) = none) :
    result = some ⟨tree.1, awkSkipWs rest, tree.2⟩ := by
  obtain ⟨fuel, hfuel, rfl⟩ := h
  obtain ⟨fuel, rfl⟩ : ∃ f, fuel = f + 1 := ⟨fuel - 1, by omega⟩
  simp [binLoop, hop]

theorem AtLoop.turn {ws : Space} {c : UInt8} {s : List UInt8} {type : ExprType} {out : Parsed}
    (h : AtLoop pool op operand (ws.1 ++ c :: s) tree result) (hc : awksIsspace c = false) (hop : op c = some type)
    (hout : operand (awkSkipWs s) tree.2 = some out) (hlen : (awkSkipWs out.rest).length ≤ s.length) :
    AtLoop pool op operand out.rest
      (out.pools.next pool, out.pools.store pool (opNode type tree.1 out.expr)) result := by
  obtain ⟨fuel, hfuel, rfl⟩ := h
  rw [skipWs_space, skipWs_cons hc] at hfuel ⊢
  obtain ⟨fuel, rfl⟩ : ∃ f, fuel = f + 1 := ⟨fuel - 1, by omega⟩
  rw [List.length_cons] at hfuel
  exact ⟨fuel, by omega, by simp [binLoop, hop, hout, opNode]⟩

theorem AtLoop.congr {rest' : List UInt8} (h : AtLoop pool op operand rest tree result)
    (hrest : awkSkipWs rest = awkSkipWs rest') : AtLoop pool op operand rest' tree result := by
  simpa only [AtLoop, hrest] using h

theorem atLoop_mul {s : List UInt8} {ps : Pools} {out : Parsed} (h : awkParsePrimary expr s ps = some out) :
    AtLoop .mul mulType (awkParsePrimary expr) out.rest (out.expr, out.pools) (awkParseMul expr s ps) :=
  ⟨_, Nat.lt_succ_self _, by simp [awkParseMul, h]⟩

theorem atLoop_add {s : List UInt8} {ps : Pools} {out : Parsed} (h : awkParseMul expr s ps = some out) :
    AtLoop .add addType (awkParseMul expr) out.rest (out.expr, out.pools) (awkParseAdd expr s ps) :=
  ⟨_, Nat.lt_succ_self _, by simp [awkParseAdd, h]⟩

end Levels

/-! ## The operators in front of their operands -/

theorem MulOp.reads (op : MulOp) : isNameChar op.char = false ∧ awksIsspace op.char = false ∧ op.char ≠ 0x28 ∧
    mulType op.char = some op.type := by
  cases op <;> decide

theorem AddOp.reads (op : AddOp) : isNameChar op.char = false ∧ awksIsspace op.char = false ∧ op.char ≠ 0x28 ∧
    mulType op.char = none ∧ addType op.char = some op.type := by
  cases op <;> decide

theorem CmpOp.reads (op : CmpOp) (s : List UInt8) :
    ∃ c t, op.text ++ s = c :: t ∧ isNameChar c = false ∧ awksIsspace c = false ∧ c ≠ 0x28 ∧ mulType c = none ∧
      addType c = none := by
  cases op <;> exact ⟨_, _, rfl, by decide⟩

theorem cmpType_append (op : CmpOp) {s : List UInt8} (h : awkPeek s ≠ 0x3D) :
    cmpType (op.text ++ s) = some (op.type, op.pool, op.text.length) := by
  cases s with
  | nil => cases op <;> rfl
  | cons c s =>
    have hc : 0x3D ≠ c := Ne.symm h
    cases op <;> simp [cmpType, CmpOp.text, CmpOp.type, CmpOp.pool, awkMatchStr, awkPeek, hc]

theorem peek_space_ne (ws : Space) {s : List UInt8} (h : awkPeek s ≠ 0x3D) : awkPeek (ws.1 ++ s) ≠ 0x3D := by
  obtain ⟨ws, hws⟩ := ws
  cases ws with
  | nil => exact h
  | cons c ws =>
    have hc := hws c List.mem_cons_self
    rintro heq
    rw [show c = 0x3D from heq] at hc
    exact absurd hc (by decide)

theorem peek_text_ne {ℓ : Level} (e : Phrase ℓ) (rest : List UInt8) : awkPeek (e.text ++ rest) ≠ 0x3D := by
  have hname {c : UInt8} (h : isNameChar c = true) : c ≠ 0x3D := ne_of_nameChar h (by decide)
  induction e generalizing rest with
  | number ws neg ds =>
    rw [Phrase.text, List.append_assoc]
    refine peek_space_ne ws ?_
    cases neg with
    | true => simp
    | false =>
      obtain ⟨hpeek, hdigit⟩ := Digits.peek_append ds rest
      simpa [hpeek] using hname (nameChar_of_digit hdigit)
  | string ws q =>
    rw [Phrase.text, List.append_assoc]
    refine peek_space_ne ws ?_
    rcases q.quote_mark with h | h <;> simp [Literal.text, h]
  | name ws n =>
    rw [Phrase.text, List.append_assoc]
    refine peek_space_ne ws ?_
    rw [Name.peek_append]
    exact hname (nameChar_of_nameStart n.2.1)
  | field ws | length ws | lengthOf ws | int ws | paren ws =>
    rw [Phrase.text, List.append_assoc]
    exact peek_space_ne ws (by simp [kwLength, kwInt])
  | mulFst e ih | addFst e ih | cmpFst e ih => exact ih rest
  | mul l ws op r ihl | add l ws op r ihl | cmp l ws op r ihl =>
    rw [Phrase.text, List.append_assoc]
    exact ihl _

/-! ## The phrases -/

/-- In front of what does not go on with it, a phrase is read to its end and leaves its tree. -/
def Reads (expr : Parser) {ℓ : Level} (e : Phrase ℓ) : Prop :=
  ∀ rest ps, match ℓ with
  | .primary => Clear rest → ∃ r, awkSkipWs r = awkSkipWs rest ∧
      awkParsePrimary expr (e.text ++ rest) ps = some ⟨(e.build ps).1, r, (e.build ps).2⟩
  | .mul => Clear rest →
      AtLoop .mul mulType (awkParsePrimary expr) rest (e.build ps) (awkParseMul expr (e.text ++ rest) ps)
  | .add => Clear rest → mulType (awkPeek (awkSkipWs rest)) = none →
      AtLoop .add addType (awkParseMul expr) rest (e.build ps) (awkParseAdd expr (e.text ++ rest) ps)
  | .cmp => Ends rest →
      awkParseCmp expr (e.text ++ rest) ps = some ⟨(e.build ps).1, awkSkipWs rest, (e.build ps).2⟩

theorem ends_close (ws : Space) (rest : List UInt8) : Ends (ws.1 ++ 0x29 :: rest) := by
  have hskip : awkSkipWs (ws.1 ++ 0x29 :: rest) = 0x29 :: rest := by rw [skipWs_space, skipWs_cons (by decide)]
  refine ⟨clear_space ws rest (by decide) (by decide) (by decide), ?_⟩
  rw [hskip]
  simp [mulType, addType, cmpType, awkMatchStr]

theorem closeParen_close (ws : Space) (rest : List UInt8) : closeParen (awkSkipWs (ws.1 ++ 0x29 :: rest)) = rest := by
  rw [skipWs_space, skipWs_cons (by decide), closeParen, skipWs_cons (by decide)]
  rfl

theorem argument_reads {expr : Parser} {e : Phrase .cmp} (h : Reads expr e) (ws : Space) (p : Ptr) (rest : List UInt8)
    (ps : Pools) : parseArgument (awkParseCmp expr) p (0x28 :: (e.text ++ (ws.1 ++ 0x29 :: rest))) ps =
      some ⟨p, rest, (e.build ps).2.setLeft p (e.build ps).1⟩ := by
  have he := h (ws.1 ++ 0x29 :: rest) ps (ends_close ws rest)
  rw [argument_paren, he, Option.map_some, closeParen_close]

theorem skipWs_paren (ws : Space) (s : List UInt8) : awkSkipWs (ws.1 ++ 0x28 :: s) = 0x28 :: s := by
  rw [skipWs_space, skipWs_cons (by decide)]

theorem length_skipWs_append_le (text rest : List UInt8) : (awkSkipWs rest).length ≤ (text ++ rest).length :=
  (length_skipWs_le rest).trans (by simp)

theorem mul_reads {expr : Parser} {l : Phrase .mul} {r : Phrase .primary} (hl : Reads expr l) (hr : Reads expr r)
    (ws : Space) (op : MulOp) : Reads expr (.mul l ws op r) := by
  intro rest ps hclear
  obtain ⟨hname, hspace, hparen, htype⟩ := MulOp.reads op
  have hloop := hl (ws.1 ++ op.char :: (r.text ++ rest)) ps (clear_space ws _ hname hspace hparen)
  obtain ⟨s, hskip, hout⟩ := hr rest (l.build ps).2 hclear
  have hlen : (awkSkipWs s).length ≤ (r.text ++ rest).length := hskip ▸ length_skipWs_append_le r.text rest
  rw [Phrase.text, List.append_assoc, List.append_assoc, List.cons_append]
  exact (hloop.turn hspace htype ((primary_skipWs expr _ _).trans hout) hlen).congr hskip

theorem add_reads {expr : Parser} {l : Phrase .add} {r : Phrase .mul} (hl : Reads expr l) (hr : Reads expr r)
    (ws : Space) (op : AddOp) : Reads expr (.add l ws op r) := by
  intro rest ps hclear hmul
  obtain ⟨hname, hspace, hparen, hnone, htype⟩ := AddOp.reads op
  have hskip : awkSkipWs (ws.1 ++ op.char :: (r.text ++ rest)) = op.char :: (r.text ++ rest) := by
    rw [skipWs_space, skipWs_cons hspace]
  have hloop := hl (ws.1 ++ op.char :: (r.text ++ rest)) ps (clear_space ws _ hname hspace hparen)
    (by rw [hskip]; exact hnone)
  have hout := (hr rest (l.build ps).2 hclear).ends hmul
  have hlen : (awkSkipWs (awkSkipWs rest)).length ≤ (r.text ++ rest).length := by
    rw [skipWs_skipWs]
    exact length_skipWs_append_le r.text rest
  rw [Phrase.text, List.append_assoc, List.append_assoc, List.cons_append]
  exact (hloop.turn hspace htype ((mul_skipWs _ _).trans hout) hlen).congr (skipWs_skipWs rest)

theorem cmp_left_reads {expr : Parser} {l : Phrase .add} (hl : Reads expr l) (ws : Space) (op : CmpOp)
    (s : List UInt8) (ps : Pools) : awkParseAdd expr (l.text ++ (ws.1 ++ (op.text ++ s))) ps =
      some ⟨(l.build ps).1, op.text ++ s, (l.build ps).2⟩ := by
  obtain ⟨c, t, hct, hname, hspace, hparen, hnone, hnone'⟩ := CmpOp.reads op s
  have hskip : awkSkipWs (ws.1 ++ (op.text ++ s)) = op.text ++ s := by rw [hct, skipWs_space, skipWs_cons hspace]
  have hl := hl (ws.1 ++ (op.text ++ s)) ps (by rw [hct]; exact clear_space ws t hname hspace hparen)
    (by rw [hskip, hct]; exact hnone)
  have hleft := hl.ends (by rw [hskip, hct]; exact hnone')
  rwa [hskip] at hleft

theorem skipWs_cmpOp (op : CmpOp) (s : List UInt8) : awkSkipWs (op.text ++ s) = op.text ++ s := by
  obtain ⟨c, t, hct, -, hspace, -⟩ := CmpOp.reads op s
  rw [hct, skipWs_cons hspace]

theorem cmp_reads {expr : Parser} {l r : Phrase .add} (hl : Reads expr l) (hr : Reads expr r) (ws : Space) (op : CmpOp) :
    Reads expr (.cmp l ws op r) := by
  rintro rest ps ⟨hclear, hmul, hadd, -⟩
  have hleft := cmp_left_reads hl ws op (r.text ++ rest) ps
  have hright := (hr rest (l.build ps).2 hclear hmul).ends hadd
  have htype := cmpType_append op (peek_text_ne r rest)
  have htext : (Phrase.cmp l ws op r).text ++ rest = l.text ++ (ws.1 ++ (op.text ++ (r.text ++ rest))) := by
    simp only [Phrase.text, List.append_assoc]
  rw [htext]
  simp [awkParseCmp, hleft, skipWs_cmpOp, htype, add_skipWs, hright, Phrase.build, makeOp, opNode]

theorem paren_reads {expr : Parser} {e : Phrase .cmp} (h : Reads expr e) (ws ws₂ : Space) :
    Reads (awkParseCmp expr) (.paren ws e ws₂) := by
  intro rest ps _
  have he := h (ws₂.1 ++ 0x29 :: rest) ps (ends_close ws₂ rest)
  have htext : (Phrase.paren ws e ws₂).text ++ rest = ws.1 ++ 0x28 :: (e.text ++ (ws₂.1 ++ 0x29 :: rest)) := by
    simp [Phrase.text]
  refine ⟨rest, rfl, ?_⟩
  rw [htext, primary_space, primary_paren, cmp_skipWs, he, Option.map_some, closeParen_close]
  rfl

theorem lengthOf_reads {expr : Parser} {e : Phrase .cmp} (h : Reads expr e) (ws ws₁ ws₂ : Space) :
    Reads (awkParseCmp expr) (.lengthOf ws ws₁ e ws₂) := by
  intro rest ps _
  have htext : (Phrase.lengthOf ws ws₁ e ws₂).text ++ rest =
      ws.1 ++ (kwLength ++ (ws₁.1 ++ 0x28 :: (e.text ++ (ws₂.1 ++ 0x29 :: rest)))) := by
    simp [Phrase.text]
  refine ⟨rest, rfl, ?_⟩
  rw [htext, primary_space, primary_length, skipWs_paren, argument_reads h]
  rfl

theorem int_reads {expr : Parser} {e : Phrase .cmp} (h : Reads expr e) (ws ws₁ ws₂ : Space) :
    Reads (awkParseCmp expr) (.int ws ws₁ e ws₂) := by
  intro rest ps _
  have htext : (Phrase.int ws ws₁ e ws₂).text ++ rest =
      ws.1 ++ (kwInt ++ (ws₁.1 ++ 0x28 :: (e.text ++ (ws₂.1 ++ 0x29 :: rest)))) := by
    simp [Phrase.text]
  refine ⟨rest, rfl, ?_⟩
  rw [htext, primary_space, primary_int, skipWs_paren, argument_reads h]
  rfl

theorem phrase_reads {ℓ : Level} (e : Phrase ℓ) (hwhole : e.Whole) (fuel : Nat) (hdepth : e.depth ≤ fuel) :
    Reads (awkParseExpr fuel) e := by
  induction e generalizing fuel with
  | number ws neg ds =>
    intro rest ps hclear
    rw [Phrase.text, List.append_assoc, List.append_assoc, primary_space, primary_number _ neg ds hclear.1]
    exact ⟨rest, rfl, rfl⟩
  | string ws q =>
    intro rest ps hclear
    rw [Phrase.text, List.append_assoc, primary_space, primary_string]
    exact ⟨rest, rfl, rfl⟩
  | field ws ws₁ ds =>
    intro rest ps hclear
    rw [Phrase.text, List.append_assoc, List.cons_append, List.append_assoc, primary_space,
      primary_field _ ws₁ ds hclear.1]
    refine ⟨rest, rfl, ?_⟩
    split
    · next h0 =>
      rw [List.drop_eq_nil_of_le (hwhole h0).le]
      rfl
    · rfl
  | name ws n =>
    intro rest ps hclear
    obtain ⟨hlen, hlength, hint⟩ := hwhole
    rw [Phrase.text, List.append_assoc, primary_space, primary_whole_name _ n hlen hlength hint hclear.1]
    exact ⟨rest, rfl, rfl⟩
  | length ws =>
    intro rest ps hclear
    rw [Phrase.text, List.append_assoc, primary_space, primary_length, parseArgument, if_neg hclear.2]
    exact ⟨awkSkipWs rest, skipWs_skipWs rest, rfl⟩
  | lengthOf ws ws₁ e ws₂ ih =>
    obtain ⟨fuel, rfl⟩ : ∃ f, fuel = f + 1 := ⟨fuel - 1, by simp only [Phrase.depth] at hdepth; omega⟩
    exact lengthOf_reads (ih hwhole fuel (Nat.succ_le_succ_iff.mp hdepth)) ws ws₁ ws₂
  | int ws ws₁ e ws₂ ih =>
    obtain ⟨fuel, rfl⟩ : ∃ f, fuel = f + 1 := ⟨fuel - 1, by simp only [Phrase.depth] at hdepth; omega⟩
    exact int_reads (ih hwhole fuel (Nat.succ_le_succ_iff.mp hdepth)) ws ws₁ ws₂
  | paren ws e ws₂ ih =>
    obtain ⟨fuel, rfl⟩ : ∃ f, fuel = f + 1 := ⟨fuel - 1, by simp only [Phrase.depth] at hdepth; omega⟩
    exact paren_reads (ih hwhole fuel (Nat.succ_le_succ_iff.mp hdepth)) ws ws₂
  | mulFst e ih =>
    intro rest ps hclear
    obtain ⟨s, hskip, hout⟩ := ih hwhole fuel hdepth rest ps hclear
    exact (atLoop_mul hout).congr hskip
  | mul l ws op r ihl ihr =>
    exact mul_reads (ihl hwhole.1 fuel (le_of_max_le_left hdepth)) (ihr hwhole.2 fuel (le_of_max_le_right hdepth)) ws op
  | addFst e ih =>
    intro rest ps hclear hmul
    exact (atLoop_add ((ih hwhole fuel hdepth rest ps hclear).ends hmul)).congr (skipWs_skipWs rest)
  | add l ws op r ihl ihr =>
    exact add_reads (ihl hwhole.1 fuel (le_of_max_le_left hdepth)) (ihr hwhole.2 fuel (le_of_max_le_right hdepth)) ws op
  | cmpFst e ih =>
    rintro rest ps ⟨hclear, hmul, hadd, hcmp⟩
    have hleft := (ih hwhole fuel hdepth rest ps hclear hmul).ends hadd
    simp [Phrase.text, Phrase.build, awkParseCmp, hleft, skipWs_skipWs, hcmp]
  | cmp l ws op r ihl ihr =>
    exact cmp_reads (ihl hwhole.1 fuel (le_of_max_le_left hdepth)) (ihr hwhole.2 fuel (le_of_max_le_right hdepth)) ws op

theorem awkParse_phrase (e : Phrase .cmp) (hwhole : e.Whole) {rest : List UInt8} (hends : Ends rest) (ps : Pools) :
    awkParse (e.text ++ rest) ps = some ⟨(e.build ps).1, awkSkipWs rest, (e.build ps).2⟩ := by
  have hdepth : e.depth ≤ (e.text ++ rest).length := (depth_le_length e).trans (by simp)
  exact phrase_reads e hwhole _ hdepth rest ps hends

/-! ## Tokens that are not scanned whole -/

/-- The parser has stopped inside a token, somewhere in front of `rest`. -/
structure Stuck (input rest s : List UInt8) : Prop where
  name : isNameChar (awkPeek s) = true
  more : rest.length < s.length
  le : s.length ≤ input.length

theorem Stuck.stays {input rest s : List UInt8} (h : Stuck input rest s) :
    awkSkipWs s = s ∧ mulType (awkPeek s) = none ∧ addType (awkPeek s) = none ∧ cmpType s = none ∧
      closeParen s = s := by
  obtain ⟨hname, hmore, -⟩ := h
  cases s with
  | nil => exact absurd hmore (Nat.not_lt_zero _)
  | cons c s =>
    have hne (d : UInt8) (hd : isNameChar d = false) : c ≠ d := ne_of_nameChar hname hd
    have hskip : awkSkipWs (c :: s) = c :: s := skipWs_cons (nameChar_not_space hname) s
    refine ⟨hskip, ?_, ?_, ?_, ?_⟩
    · simp [mulType, hne 0x2A (by decide), hne 0x2F (by decide), hne 0x25 (by decide)]
    · simp [addType, hne 0x2B (by decide), hne 0x2D (by decide)]
    · simp [cmpType, awkMatchStr, (hne 0x3D (by decide)).symm, (hne 0x21 (by decide)).symm, hne 0x3E (by decide),
        (hne 0x3E (by decide)).symm, hne 0x3C (by decide), (hne 0x3C (by decide)).symm]
    · simp [closeParen, hskip, hne 0x29 (by decide)]

theorem Stuck.mono {input rest input' rest' s : List UInt8} (h : Stuck input rest s)
    (hinput : input.length ≤ input'.length) (hrest : rest'.length ≤ rest.length) : Stuck input' rest' s :=
  ⟨h.name, hrest.trans_lt h.more, h.le.trans hinput⟩

/-- The function of the parser for a level. -/
def parserAt (expr : Parser) : Level → Parser
  | .primary => awkParsePrimary expr
  | .mul => awkParseMul expr
  | .add => awkParseAdd expr
  | .cmp => awkParseCmp expr

/-- The phrase is not read to its end. -/
def Sticks (expr : Parser) {ℓ : Level} (e : Phrase ℓ) : Prop :=
  ∀ rest ps, Clear rest → ∃ out, parserAt expr ℓ (e.text ++ rest) ps = some out ∧ Stuck (e.text ++ rest) rest out.rest

theorem stuck_of_suffix {pre t rest : List UInt8} (ht : t ≠ []) (hchars : ∀ c ∈ t, isNameChar c = true) :
    Stuck (pre ++ (t ++ rest)) rest (t ++ rest) := by
  cases t with
  | nil => exact absurd rfl ht
  | cons c t =>
    refine ⟨hchars c List.mem_cons_self, ?_, by simp⟩
    rw [List.length_append, List.length_cons]
    omega

section Stuck

variable (expr : Parser)

theorem field_sticks (ws ws₁ : Space) (ds : Digits) (h : ¬(Phrase.field ws ws₁ ds).Whole) :
    Sticks expr (.field ws ws₁ ds) := by
  intro rest ps hclear
  obtain ⟨h0, hlen⟩ := Classical.not_imp.mp h
  obtain ⟨c, t, hct⟩ : ∃ c t, ds.1 = c :: t := List.exists_cons_of_ne_nil ds.2.1
  have ht : t ≠ [] := by
    rintro rfl
    exact hlen (by rw [hct]; rfl)
  have hchars : ∀ d ∈ t, isNameChar d = true := fun d hd => nameChar_of_digit (ds.2.2 d (by simp [hct, hd]))
  have hout := primary_field expr ws₁ ds hclear.1 ps
  rw [if_pos h0, hct, List.drop_one, List.tail_cons] at hout
  have htext : (Phrase.field ws ws₁ ds).text ++ rest = (ws.1 ++ 0x24 :: (ws₁.1 ++ [c])) ++ (t ++ rest) := by
    simp [Phrase.text, hct]
  have hrun : parserAt expr .primary ((Phrase.field ws ws₁ ds).text ++ rest) ps =
      some ⟨ps.next .field, t ++ rest, ps.store .field (fieldNode ds)⟩ := by
    rw [Phrase.text, List.append_assoc, List.cons_append, List.append_assoc, parserAt, primary_space, hct, hout]
  refine ⟨_, hrun, ?_⟩
  rw [htext]
  exact stuck_of_suffix ht hchars

theorem argument_stuck (p : Ptr) {t rest : List UInt8} (ht : t ≠ []) (hchars : ∀ c ∈ t, isNameChar c = true)
    (ps : Pools) : parseArgument expr p (awkSkipWs (t ++ rest)) ps = some ⟨p, t ++ rest, ps⟩ := by
  cases t with
  | nil => exact absurd rfl ht
  | cons c t =>
    have hc := hchars c List.mem_cons_self
    have hparen : awkPeek (c :: (t ++ rest)) ≠ 0x28 := ne_of_nameChar hc (by decide)
    rw [List.cons_append, skipWs_cons (nameChar_not_space hc), parseArgument, if_neg hparen]

theorem parseName_long {n rest : List UInt8} (hn : ∀ c ∈ n, isNameChar c = true) (hlen : 31 < n.length) :
    (awkParseName (n ++ rest) 32).2 = n.drop 31 ++ rest := by
  have htake : (n ++ rest).take 31 = n.take 31 := List.take_append_of_le_length hlen.le
  have hall : (n.take 31 ++ []).takeWhile isNameChar = n.take 31 :=
    takeWhile_clear (fun c hc => hn c (List.mem_of_mem_take hc)) rfl
  rw [List.append_nil] at hall
  simp only [awkParseName, Nat.add_one_sub_one, htake, hall, List.length_take, Nat.min_eq_left hlen.le]
  exact List.drop_append_of_le_length hlen.le

theorem name_sticks (ws : Space) (n : Name) (h : ¬(Phrase.name ws n).Whole) : Sticks expr (.name ws n) := by
  intro rest ps hclear
  have hsuffix {kw : List UInt8} (hkw : kw <+: n.1) (hne : n.1 ≠ kw) :
      ∃ t, n.1 = kw ++ t ∧ t ≠ [] ∧ ∀ c ∈ t, isNameChar c = true := by
    obtain ⟨t, ht⟩ := hkw
    refine ⟨t, ht.symm, ?_, fun c hc => n.2.2.1 c (ht ▸ List.mem_append_right kw hc)⟩
    rintro rfl
    exact hne (by simpa using ht.symm)
  by_cases hlength : kwLength <+: n.1
  · obtain ⟨t, hn, ht, hchars⟩ := hsuffix hlength n.2.2.2.1
    have htext : (Phrase.name ws n).text ++ rest = (ws.1 ++ kwLength) ++ (t ++ rest) := by simp [Phrase.text, hn]
    have hrun : parserAt expr .primary ((Phrase.name ws n).text ++ rest) ps =
        some ⟨ps.next .length, t ++ rest, ps.store .length { type := .length }⟩ := by
      rw [htext, List.append_assoc, parserAt, primary_space, primary_length, argument_stuck expr _ ht hchars]
    refine ⟨_, hrun, ?_⟩
    rw [htext]
    exact stuck_of_suffix ht hchars
  by_cases hint : kwInt <+: n.1
  · obtain ⟨t, hn, ht, hchars⟩ := hsuffix hint n.2.2.2.2
    have htext : (Phrase.name ws n).text ++ rest = (ws.1 ++ kwInt) ++ (t ++ rest) := by simp [Phrase.text, hn]
    have hrun : parserAt expr .primary ((Phrase.name ws n).text ++ rest) ps =
        some ⟨ps.next .int, t ++ rest, ps.store .int { type := .tonum }⟩ := by
      rw [htext, List.append_assoc, parserAt, primary_space, primary_int, argument_stuck expr _ ht hchars]
    refine ⟨_, hrun, ?_⟩
    rw [htext]
    exact stuck_of_suffix ht hchars
  have hlen : 31 < n.1.length := by
    by_contra hle
    exact h ⟨by omega, hlength, hint⟩
  have hl : awkMatchStr (n.1 ++ rest) kwLength = false := by
    rw [← Bool.not_eq_true, matchStr_append (fun c hc => nameChar_keyword (List.mem_append_left _ hc)) hclear.1]
    exact hlength
  have hi : awkMatchStr (n.1 ++ rest) kwInt = false := by
    rw [← Bool.not_eq_true, matchStr_append (fun c hc => nameChar_keyword (List.mem_append_right _ hc)) hclear.1]
    exact hint
  have htext : (Phrase.name ws n).text ++ rest = (ws.1 ++ n.1.take 31) ++ (n.1.drop 31 ++ rest) := by
    rw [List.append_assoc, ← List.append_assoc (n.1.take 31), List.take_append_drop, Phrase.text, List.append_assoc]
  have hrest : n.1.drop 31 ≠ [] := by
    rw [Ne, List.drop_eq_nil_iff]
    omega
  have hout := primary_name expr ((Name.peek_append n rest).symm ▸ n.2.1) hl hi ps
  rw [parseName_long n.2.2.1 hlen] at hout
  rw [Phrase.text, List.append_assoc] at htext ⊢
  refine ⟨_, (primary_space expr ws _ ps).trans hout, ?_⟩
  rw [htext]
  exact stuck_of_suffix hrest fun c hc => n.2.2.1 c (List.mem_of_mem_drop hc)

end Stuck

theorem paren_sticks {expr : Parser} {e : Phrase .cmp} (h : Sticks expr e) (ws ws₂ : Space) :
    Sticks (awkParseCmp expr) (.paren ws e ws₂) := by
  intro rest ps _
  obtain ⟨out, hout, hstuck⟩ := h (ws₂.1 ++ 0x29 :: rest) ps (ends_close ws₂ rest).1
  have htext : (Phrase.paren ws e ws₂).text ++ rest = ws.1 ++ 0x28 :: (e.text ++ (ws₂.1 ++ 0x29 :: rest)) := by
    simp [Phrase.text]
  have hout : awkParseCmp expr (e.text ++ (ws₂.1 ++ 0x29 :: rest)) ps = some out := hout
  obtain ⟨-, -, -, -, hclose⟩ := hstuck.stays
  refine ⟨_, by rw [htext, parserAt, primary_space, primary_paren, cmp_skipWs, hout, Option.map_some], ?_⟩
  rw [htext]
  simp only [hclose]
  exact hstuck.mono (by simp; omega) (by simp; omega)

theorem argument_sticks {expr : Parser} {e : Phrase .cmp} (h : Sticks expr e) (ws : Space) (p : Ptr)
    (rest : List UInt8) (ps : Pools) :
    ∃ out, parseArgument (awkParseCmp expr) p (0x28 :: (e.text ++ (ws.1 ++ 0x29 :: rest))) ps = some out ∧
      Stuck (e.text ++ (ws.1 ++ 0x29 :: rest)) rest out.rest := by
  obtain ⟨out, hout, hstuck⟩ := h (ws.1 ++ 0x29 :: rest) ps (ends_close ws rest).1
  have hout : awkParseCmp expr (e.text ++ (ws.1 ++ 0x29 :: rest)) ps = some out := hout
  obtain ⟨-, -, -, -, hclose⟩ := hstuck.stays
  refine ⟨_, by rw [argument_paren, hout, Option.map_some], ?_⟩
  simp only [hclose]
  exact hstuck.mono le_rfl (by simp; omega)

theorem lengthOf_sticks {expr : Parser} {e : Phrase .cmp} (h : Sticks expr e) (ws ws₁ ws₂ : Space) :
    Sticks (awkParseCmp expr) (.lengthOf ws ws₁ e ws₂) := by
  intro rest ps _
  have htext : (Phrase.lengthOf ws ws₁ e ws₂).text ++ rest =
      ws.1 ++ (kwLength ++ (ws₁.1 ++ 0x28 :: (e.text ++ (ws₂.1 ++ 0x29 :: rest)))) := by
    simp [Phrase.text]
  obtain ⟨out, hout, hstuck⟩ := argument_sticks h ws₂ (ps.next .length) rest (ps.store .length { type := .length })
  refine ⟨out, by rw [htext, parserAt, primary_space, primary_length, skipWs_paren, hout], ?_⟩
  rw [htext]
  exact hstuck.mono (by simp; omega) le_rfl

theorem int_sticks {expr : Parser} {e : Phrase .cmp} (h : Sticks expr e) (ws ws₁ ws₂ : Space) :
    Sticks (awkParseCmp expr) (.int ws ws₁ e ws₂) := by
  intro rest ps _
  have htext : (Phrase.int ws ws₁ e ws₂).text ++ rest =
      ws.1 ++ (kwInt ++ (ws₁.1 ++ 0x28 :: (e.text ++ (ws₂.1 ++ 0x29 :: rest)))) := by
    simp [Phrase.text]
  obtain ⟨out, hout, hstuck⟩ := argument_sticks h ws₂ (ps.next .int) rest (ps.store .int { type := .tonum })
  refine ⟨out, by rw [htext, parserAt, primary_space, primary_int, skipWs_paren, hout], ?_⟩
  rw [htext]
  exact hstuck.mono (by simp; omega) le_rfl

theorem AtLoop.stuck {pool : Pool} {op : UInt8 → Option ExprType} {operand : Parser} {rest input rest' : List UInt8}
    {tree : Ptr × Pools} {result : Option Parsed} (h : AtLoop pool op operand rest tree result)
    (hstuck : Stuck input rest' rest) (hop : op (awkPeek rest) = none) :
    ∃ out, result = some out ∧ Stuck input rest' out.rest := by
  obtain ⟨hskip, -⟩ := hstuck.stays
  have hend := h.ends (by rwa [hskip])
  rw [hskip] at hend
  exact ⟨_, hend, hstuck⟩

theorem mulFst_sticks {expr : Parser} {e : Phrase .primary} (h : Sticks expr e) : Sticks expr (.mulFst e) := by
  intro rest ps hclear
  obtain ⟨out, hout, hstuck⟩ := h rest ps hclear
  exact (atLoop_mul hout).stuck hstuck hstuck.stays.2.1

theorem addFst_sticks {expr : Parser} {e : Phrase .mul} (h : Sticks expr e) : Sticks expr (.addFst e) := by
  intro rest ps hclear
  obtain ⟨out, hout, hstuck⟩ := h rest ps hclear
  exact (atLoop_add hout).stuck hstuck hstuck.stays.2.2.1

theorem cmpFst_sticks {expr : Parser} {e : Phrase .add} (h : Sticks expr e) : Sticks expr (.cmpFst e) := by
  intro rest ps hclear
  obtain ⟨out, hout, hstuck⟩ := h rest ps hclear
  have hout : awkParseAdd expr (e.text ++ rest) ps = some out := hout
  obtain ⟨hskip, -, -, hcmp, -⟩ := hstuck.stays
  exact ⟨out, by simp [parserAt, Phrase.text, awkParseCmp, hout, hskip, hcmp], hstuck⟩

theorem mul_sticks {expr : Parser} {l : Phrase .mul} {r : Phrase .primary} (hl : Reads expr l) (hr : Sticks expr r)
    (ws : Space) (op : MulOp) : Sticks expr (.mul l ws op r) := by
  intro rest ps hclear
  obtain ⟨hname, hspace, hparen, htype⟩ := MulOp.reads op
  have hloop := hl (ws.1 ++ op.char :: (r.text ++ rest)) ps (clear_space ws _ hname hspace hparen)
  obtain ⟨out, hout, hstuck⟩ := hr rest (l.build ps).2 hclear
  obtain ⟨hskip, hmul, -⟩ := hstuck.stays
  have hturn := hloop.turn hspace htype ((primary_skipWs expr _ _).trans hout) (hskip.symm ▸ hstuck.le)
  rw [Phrase.text, List.append_assoc, List.append_assoc, List.cons_append]
  exact hturn.stuck (hstuck.mono (by simp; omega) le_rfl) hmul

theorem add_sticks {expr : Parser} {l : Phrase .add} {r : Phrase .mul} (hl : Reads expr l) (hr : Sticks expr r)
    (ws : Space) (op : AddOp) : Sticks expr (.add l ws op r) := by
  intro rest ps hclear
  obtain ⟨hname, hspace, hparen, hnone, htype⟩ := AddOp.reads op
  have hskip : awkSkipWs (ws.1 ++ op.char :: (r.text ++ rest)) = op.char :: (r.text ++ rest) := by
    rw [skipWs_space, skipWs_cons hspace]
  have hloop := hl (ws.1 ++ op.char :: (r.text ++ rest)) ps (clear_space ws _ hname hspace hparen)
    (by rw [hskip]; exact hnone)
  obtain ⟨out, hout, hstuck⟩ := hr rest (l.build ps).2 hclear
  obtain ⟨hself, -, hadd, -⟩ := hstuck.stays
  have hturn := hloop.turn hspace htype ((mul_skipWs _ _).trans hout) (hself.symm ▸ hstuck.le)
  rw [Phrase.text, List.append_assoc, List.append_assoc, List.cons_append]
  exact hturn.stuck (hstuck.mono (by simp; omega) le_rfl) hadd

theorem cmp_sticks {expr : Parser} {l r : Phrase .add} (hl : Reads expr l) (hr : Sticks expr r) (ws : Space)
    (op : CmpOp) : Sticks expr (.cmp l ws op r) := by
  intro rest ps hclear
  obtain ⟨out, hout, hstuck⟩ := hr rest (l.build ps).2 hclear
  have hout : awkParseAdd expr (r.text ++ rest) (l.build ps).2 = some out := hout
  have hleft := cmp_left_reads hl ws op (r.text ++ rest) ps
  have htype := cmpType_append op (peek_text_ne r rest)
  have htext : (Phrase.cmp l ws op r).text ++ rest = l.text ++ (ws.1 ++ (op.text ++ (r.text ++ rest))) := by
    simp only [Phrase.text, List.append_assoc]
  rw [htext]
  refine ⟨_, by simp [parserAt, awkParseCmp, hleft, skipWs_cmpOp, htype, add_skipWs, hout]; rfl, ?_⟩
  exact hstuck.mono (by simp; omega) le_rfl

theorem Sticks.left {expr : Parser} {ℓ : Level} {l : Phrase ℓ} (h : Sticks expr l) {rest tail : List UInt8}
    (hclear : Clear tail) (hlen : rest.length ≤ tail.length) (ps : Pools) :
    ∃ out, parserAt expr ℓ (l.text ++ tail) ps = some out ∧ Stuck (l.text ++ tail) rest out.rest := by
  obtain ⟨out, hout, hstuck⟩ := h tail ps hclear
  exact ⟨out, hout, hstuck.mono le_rfl hlen⟩

theorem phrase_sticks {ℓ : Level} (e : Phrase ℓ) (hwhole : ¬e.Whole) (fuel : Nat) (hdepth : e.depth ≤ fuel) :
    Sticks (awkParseExpr fuel) e := by
  induction e generalizing fuel with
  | number ws neg ds => exact absurd trivial hwhole
  | string ws q => exact absurd trivial hwhole
  | field ws ws₁ ds => exact field_sticks _ ws ws₁ ds hwhole
  | name ws n => exact name_sticks _ ws n hwhole
  | length ws => exact absurd trivial hwhole
  | lengthOf ws ws₁ e ws₂ ih =>
    obtain ⟨fuel, rfl⟩ : ∃ f, fuel = f + 1 := ⟨fuel - 1, by simp only [Phrase.depth] at hdepth; omega⟩
    exact lengthOf_sticks (ih hwhole fuel (Nat.succ_le_succ_iff.mp hdepth)) ws ws₁ ws₂
  | int ws ws₁ e ws₂ ih =>
    obtain ⟨fuel, rfl⟩ : ∃ f, fuel = f + 1 := ⟨fuel - 1, by simp only [Phrase.depth] at hdepth; omega⟩
    exact int_sticks (ih hwhole fuel (Nat.succ_le_succ_iff.mp hdepth)) ws ws₁ ws₂
  | paren ws e ws₂ ih =>
    obtain ⟨fuel, rfl⟩ : ∃ f, fuel = f + 1 := ⟨fuel - 1, by simp only [Phrase.depth] at hdepth; omega⟩
    exact paren_sticks (ih hwhole fuel (Nat.succ_le_succ_iff.mp hdepth)) ws ws₂
  | mulFst e ih => exact mulFst_sticks (ih hwhole fuel hdepth)
  | addFst e ih => exact addFst_sticks (ih hwhole fuel hdepth)
  | cmpFst e ih => exact cmpFst_sticks (ih hwhole fuel hdepth)
  | mul l ws op r ihl ihr =>
    by_cases hl : l.Whole
    · have hr : ¬r.Whole := fun hr => hwhole ⟨hl, hr⟩
      exact mul_sticks (phrase_reads l hl fuel (le_of_max_le_left hdepth)) (ihr hr fuel (le_of_max_le_right hdepth)) ws op
    · intro rest ps hclear
      obtain ⟨hname, hspace, hparen, -⟩ := MulOp.reads op
      rw [Phrase.text, List.append_assoc, List.append_assoc]
      exact (ihl hl fuel (le_of_max_le_left hdepth)).left (clear_space ws _ hname hspace hparen) (by simp; omega) ps
  | add l ws op r ihl ihr =>
    by_cases hl : l.Whole
    · have hr : ¬r.Whole := fun hr => hwhole ⟨hl, hr⟩
      exact add_sticks (phrase_reads l hl fuel (le_of_max_le_left hdepth)) (ihr hr fuel (le_of_max_le_right hdepth)) ws op
    · intro rest ps hclear
      obtain ⟨hname, hspace, hparen, -⟩ := AddOp.reads op
      rw [Phrase.text, List.append_assoc, List.append_assoc]
      exact (ihl hl fuel (le_of_max_le_left hdepth)).left (clear_space ws _ hname hspace hparen) (by simp; omega) ps
  | cmp l ws op r ihl ihr =>
    by_cases hl : l.Whole
    · have hr : ¬r.Whole := fun hr => hwhole ⟨hl, hr⟩
      exact cmp_sticks (phrase_reads l hl fuel (le_of_max_le_left hdepth)) (ihr hr fuel (le_of_max_le_right hdepth)) ws op
    · intro rest ps hclear
      obtain ⟨c, t, hct, hname, hspace, hparen, -⟩ := CmpOp.reads op (r.text ++ rest)
      have htext : (Phrase.cmp l ws op r).text ++ rest = l.text ++ (ws.1 ++ c :: t) := by
        rw [Phrase.text, List.append_assoc, List.append_assoc, List.append_assoc, hct]
      have hlen := congrArg List.length hct
      simp only [List.length_append, List.length_cons] at hlen
      -- the operand is that of the function one level up, which returns as soon as it is stuck
      have hleft := cmpFst_sticks (ihl hl fuel (le_of_max_le_left hdepth))
      rw [htext]
      exact hleft.left (clear_space ws t hname hspace hparen) (by simp; omega) ps

theorem awkParse_stuck (e : Phrase .cmp) (hwhole : ¬e.Whole) {rest : List UInt8} (hends : Ends rest) (ps : Pools) :
    ∃ out, awkParse (e.text ++ rest) ps = some out ∧ rest.length < out.rest.length := by
  have hdepth : e.depth ≤ (e.text ++ rest).length := (depth_le_length e).trans (by simp)
  obtain ⟨out, hout, hstuck⟩ := phrase_sticks e hwhole _ hdepth rest ps hends.1
  exact ⟨out, hout, hstuck.more⟩

end Chicago95.Stage2.AwkReading
