/-
# Chicago95.Stage2.AwkTrees — the trees the parser of `shell/awk.c` is to build.

A `Phrase` is a piece of a program that the grammar derives: `*`, `/` and `%` bind closer than `+` and `-`, these closer
than a comparison, and a chain of operators of one level leans to the left. The level is part of the type, so nothing
else can be written down.
-/
import Chicago95.Stage2.AwkExpr

namespace Chicago95.Stage2.AwkTrees

open Chicago95.Lib.SlotRing
open Chicago95.Stage2.AwkExpr

/-! ## Tokens -/

/-- White space, of any length. -/
def Space := { s : List UInt8 // ∀ c ∈ s, awksIsspace c = true }

/-- The digits of a number, of any length but none. -/
def Digits := { s : List UInt8 // s ≠ [] ∧ ∀ c ∈ s, awksIsdigit c = true }

/-- A name, of any length, that is not the name of a function. -/
def Name :=
  { s : List UInt8 // isNameStart (awkPeek s) = true ∧ (∀ c ∈ s, isNameChar c = true) ∧ s ≠ kwLength ∧ s ≠ kwInt }

/-- A string literal; a character comes with whether a backslash stands in front of it. -/
structure Literal where
  quote : UInt8
  chars : List (Bool × UInt8)
  quote_mark : quote = 0x22 ∨ quote = 0x27
  plain : ∀ c ∈ chars, c.1 = false → c.2 ≠ quote ∧ c.2 ≠ 0x5C
  fits : chars.length ≤ 63

/-- What stands in the source for a character of a literal. -/
def charText (c : Bool × UInt8) : List UInt8 := if c.1 then [0x5C, c.2] else [c.2]

/-- The character that is meant. -/
def charMeant (c : Bool × UInt8) : UInt8 := if c.1 then escape c.2 else c.2

/-- The literal in the source. -/
def Literal.text (q : Literal) : List UInt8 := q.quote :: (q.chars.flatMap charText ++ [q.quote])

/-- The string it stands for. -/
def Literal.meant (q : Literal) : List UInt8 := q.chars.map charMeant

/-- `*`, `/`, `%` -/
inductive MulOp
  | mul | div | mod
  deriving DecidableEq

/-- `+`, `-` -/
inductive AddOp
  | add | sub
  deriving DecidableEq

/-- `==`, `!=`, `>=`, `<=`, `>`, `<` -/
inductive CmpOp
  | eq | ne | ge | le | gt | lt
  deriving DecidableEq

namespace MulOp

def char : MulOp → UInt8
  | .mul => 0x2A
  | .div => 0x2F
  | .mod => 0x25

def type : MulOp → ExprType
  | .mul => .mul
  | .div => .div
  | .mod => .mod

end MulOp

namespace AddOp

def char : AddOp → UInt8
  | .add => 0x2B
  | .sub => 0x2D

def type : AddOp → ExprType
  | .add => .add
  | .sub => .sub

end AddOp

namespace CmpOp

def text : CmpOp → List UInt8
  | .eq => [0x3D, 0x3D]
  | .ne => [0x21, 0x3D]
  | .ge => [0x3E, 0x3D]
  | .le => [0x3C, 0x3D]
  | .gt => [0x3E]
  | .lt => [0x3C]

def type : CmpOp → ExprType
  | .eq => .eq
  | .ne => .ne
  | .ge => .ge
  | .le => .le
  | .gt => .gt
  | .lt => .lt

def pool : CmpOp → Pool
  | .eq => .eq
  | .ne => .ne
  | .ge => .ge
  | .le => .le
  | .gt => .gt
  | .lt => .lt

end CmpOp

/-! ## The grammar -/

/-- How close a phrase binds. -/
inductive Level
  | primary | mul | add | cmp
  deriving DecidableEq

/-- The phrases of the grammar, by level. White space stands in front of every token. -/
inductive Phrase : Level → Type
  | number (ws : Space) (neg : Bool) (ds : Digits) : Phrase .primary
  | string (ws : Space) (q : Literal) : Phrase .primary
  | field (ws ws₁ : Space) (ds : Digits) : Phrase .primary
  | name (ws : Space) (n : Name) : Phrase .primary
  | length (ws : Space) : Phrase .primary
  | lengthOf (ws ws₁ : Space) (e : Phrase .cmp) (ws₂ : Space) : Phrase .primary
  | int (ws ws₁ : Space) (e : Phrase .cmp) (ws₂ : Space) : Phrase .primary
  | paren (ws : Space) (e : Phrase .cmp) (ws₂ : Space) : Phrase .primary
  | mulFst (e : Phrase .primary) : Phrase .mul
  | mul (l : Phrase .mul) (ws : Space) (op : MulOp) (r : Phrase .primary) : Phrase .mul
  | addFst (e : Phrase .mul) : Phrase .add
  | add (l : Phrase .add) (ws : Space) (op : AddOp) (r : Phrase .mul) : Phrase .add
  | cmpFst (e : Phrase .add) : Phrase .cmp
  | cmp (l : Phrase .add) (ws : Space) (op : CmpOp) (r : Phrase .add) : Phrase .cmp

namespace Phrase

variable {ℓ : Level}

/-- The phrase as it stands in the source. -/
def text {ℓ : Level} : Phrase ℓ → List UInt8
  | .number ws neg ds => ws.1 ++ ((if neg then [0x2D] else []) ++ ds.1)
  | .string ws q => ws.1 ++ q.text
  | .field ws ws₁ ds => ws.1 ++ 0x24 :: (ws₁.1 ++ ds.1)
  | .name ws n => ws.1 ++ n.1
  | .length ws => ws.1 ++ kwLength
  | .lengthOf ws ws₁ e ws₂ => ws.1 ++ (kwLength ++ (ws₁.1 ++ 0x28 :: (e.text ++ (ws₂.1 ++ [0x29]))))
  | .int ws ws₁ e ws₂ => ws.1 ++ (kwInt ++ (ws₁.1 ++ 0x28 :: (e.text ++ (ws₂.1 ++ [0x29]))))
  | .paren ws e ws₂ => ws.1 ++ 0x28 :: (e.text ++ (ws₂.1 ++ [0x29]))
  | .mulFst e => e.text
  | .mul l ws op r => l.text ++ (ws.1 ++ op.char :: r.text)
  | .addFst e => e.text
  | .add l ws op r => l.text ++ (ws.1 ++ op.char :: r.text)
  | .cmpFst e => e.text
  | .cmp l ws op r => l.text ++ (ws.1 ++ (op.text ++ r.text))

/-- How deep its parentheses are nested. -/
def depth {ℓ : Level} : Phrase ℓ → Nat
  | .number .. | .string .. | .field .. | .name .. | .length .. => 0
  | .lengthOf _ _ e _ | .int _ _ e _ | .paren _ e _ => e.depth + 1
  | .mulFst e => e.depth
  | .mul l _ _ r => max l.depth r.depth
  | .addFst e => e.depth
  | .add l _ _ r => max l.depth r.depth
  | .cmpFst e => e.depth
  | .cmp l _ _ r => max l.depth r.depth

/-- The arrays of its operands and operators, in the order in which the parser takes their nodes: a function comes in
front of its argument, an operator behind its operands. -/
def nodes {ℓ : Level} : Phrase ℓ → List Pool
  | .number .. => [.number]
  | .string .. => [.string]
  | .field .. => [.field]
  | .name _ n => [varPool n.1]
  | .length .. => [.length]
  | .lengthOf _ _ e _ => .length :: e.nodes
  | .int _ _ e _ => .int :: e.nodes
  | .paren _ e _ => e.nodes
  | .mulFst e => e.nodes
  | .mul l _ _ r => l.nodes ++ (r.nodes ++ [.mul])
  | .addFst e => e.nodes
  | .add l _ _ r => l.nodes ++ (r.nodes ++ [.add])
  | .cmpFst e => e.nodes
  | .cmp l _ op r => l.nodes ++ (r.nodes ++ [op.pool])

/-- Every token of the phrase is scanned as one: its names fit their buffer and do not begin with the name of a
function, its field numbers do not begin with a 0 that is not all of them. -/
def Whole {ℓ : Level} : Phrase ℓ → Prop
  | .number .. | .string .. | .length .. => True
  | .field _ _ ds => awkPeek ds.1 = 0x30 → ds.1.length = 1
  | .name _ n => n.1.length ≤ 31 ∧ ¬kwLength <+: n.1 ∧ ¬kwInt <+: n.1
  | .lengthOf _ _ e _ | .int _ _ e _ | .paren _ e _ => e.Whole
  | .mulFst e => e.Whole
  | .mul l _ _ r => l.Whole ∧ r.Whole
  | .addFst e => e.Whole
  | .add l _ _ r => l.Whole ∧ r.Whole
  | .cmpFst e => e.Whole
  | .cmp l _ _ r => l.Whole ∧ r.Whole

end Phrase

theorem depth_le_length {ℓ : Level} (e : Phrase ℓ) : e.depth ≤ e.text.length := by
  induction e <;> simp_all only [Phrase.depth, Phrase.text, List.length_append, List.length_cons] <;> omega

/-! ## What stands in a node -/

/-- `val = val * 10 + (c - '0')` without a bound. -/
def decimal (ds : List UInt8) : Nat := ds.foldl (fun n c => n * 10 + (c.toNat - 48)) 0

/-- A number of the source, on 32 bits. -/
def numberOf (neg : Bool) (ds : Digits) : Int32 :=
  if neg then -Int32.ofNat (decimal ds.1) else Int32.ofNat (decimal ds.1)

/-- `$0` is a node of its own. -/
def fieldNode (ds : Digits) : Node :=
  if awkPeek ds.1 = 0x30 then { type := .dollar0 }
  else { type := .field, fieldIndex := Int32.ofNat (decimal ds.1) }

/-! ## Making nodes -/

/-- What makes a tree: it returns the root and the arrays. -/
abbrev Maker := Pools → Ptr × Pools

/-- What a tree looks like in the arrays: its root and its nodes, in the order in which they were taken. -/
abbrev Shape := (Ptr → Node) → Ptr → List Ptr → Prop

/-- A function and its argument. -/
def funNode (type : ExprType) (arg : Ptr) : Node := { type := type, left := some arg }

/-- An operator and its operands. -/
def opNode (type : ExprType) (left right : Ptr) : Node := { type := type, left := some left, right := some right }

/-- One node. -/
def makeAtom (k : Pool) (n : Node) : Maker := fun ps => (ps.next k, ps.store k n)

/-- A node, its argument, and the pointer to it. -/
def makeFun (k : Pool) (type : ExprType) (arg : Maker) : Maker := fun ps =>
  let a := arg (ps.store k { type := type })
  (ps.next k, a.2.setLeft (ps.next k) a.1)

/-- The operands from the left, and the node above them. -/
def makeOp (k : Pool) (type : ExprType) (left right : Maker) : Maker := fun ps =>
  let l := left ps
  let r := right l.2
  (r.2.next k, r.2.store k (opNode type l.1 r.1))

/-- Node `p` of array `k` is `n`. -/
def IsAtom (k : Pool) (n : Node) : Shape := fun node p slots => p.1 = k ∧ node p = n ∧ slots = [p]

def IsFun (k : Pool) (type : ExprType) (arg : Shape) : Shape := fun node p slots =>
  ∃ a rest, p.1 = k ∧ node p = funNode type a ∧ arg node a rest ∧ slots = p :: rest

def IsOp (k : Pool) (type : ExprType) (left right : Shape) : Shape := fun node p slots =>
  ∃ l ls r rs, p.1 = k ∧ node p = opNode type l r ∧ left node l ls ∧ right node r rs ∧ slots = ls ++ (rs ++ [p])

namespace Phrase

/-- What the parser does to the arrays for a phrase, and the node it returns. -/
def build {ℓ : Level} : Phrase ℓ → Maker
  | .number _ neg ds => makeAtom .number { type := .number, numValue := numberOf neg ds }
  | .string _ q => makeAtom .string { type := .string, strValue := q.meant }
  | .field _ _ ds => makeAtom .field (fieldNode ds)
  | .name _ n => makeAtom (varPool n.1) { type := .variable, varName := n.1 }
  | .length _ => makeAtom .length { type := .length }
  | .lengthOf _ _ e _ => makeFun .length .length e.build
  | .int _ _ e _ => makeFun .int .tonum e.build
  | .paren _ e _ => e.build
  | .mulFst e => e.build
  | .mul l _ op r => makeOp .mul op.type l.build r.build
  | .addFst e => e.build
  | .add l _ op r => makeOp .add op.type l.build r.build
  | .cmpFst e => e.build
  | .cmp l _ op r => makeOp op.pool op.type l.build r.build

/-- The tree under node `p` is the phrase, and its nodes are `slots`, one for each operand and operator. -/
def Holds {ℓ : Level} : Phrase ℓ → Shape
  | .number _ neg ds => IsAtom .number { type := .number, numValue := numberOf neg ds }
  | .string _ q => IsAtom .string { type := .string, strValue := q.meant }
  | .field _ _ ds => IsAtom .field (fieldNode ds)
  | .name _ n => IsAtom (varPool n.1) { type := .variable, varName := n.1 }
  | .length _ => IsAtom .length { type := .length }
  | .lengthOf _ _ e _ => IsFun .length .length e.Holds
  | .int _ _ e _ => IsFun .int .tonum e.Holds
  | .paren _ e _ => e.Holds
  | .mulFst e => e.Holds
  | .mul l _ op r => IsOp .mul op.type l.Holds r.Holds
  | .addFst e => e.Holds
  | .add l _ op r => IsOp .add op.type l.Holds r.Holds
  | .cmpFst e => e.Holds
  | .cmp l _ op r => IsOp op.pool op.type l.Holds r.Holds

end Phrase

/-! ## What is made is what was meant -/

/-- `make` asks the arrays for nodes `ks` and touches no others; what it leaves is of the shape, as long as it is not
given a node twice. -/
structure Makes (ks : List Pool) (make : Maker) (shape : Shape) : Prop where
  used : ∀ ps, (make ps).2.used = ps.used + fun k => ks.count k
  frame : ∀ ps, ∀ p ∉ issue ps.used ks, (make ps).2.node p = ps.node p
  shaped : ∀ ps, (issue ps.used ks : List Ptr).Nodup → shape (make ps).2.node (make ps).1 (issue ps.used ks)
  congr : ∀ {node node' p slots}, shape node p slots → (∀ q ∈ slots, node' q = node q) → shape node' p slots
  rings : ∀ {node p slots}, shape node p slots → slots.map (·.1) = ks

theorem issue_used_cons (ps : Pools) (k : Pool) (ks : List Pool) :
    (issue ps.used (k :: ks) : List Ptr) = ps.next k :: issue (bump ps.used k) ks := rfl

theorem makes_atom (k : Pool) (n : Node) : Makes [k] (makeAtom k n) (IsAtom k n) where
  used ps := bump_eq_add ps.used k
  frame ps p hp := ps.store_node_of_ne (List.ne_of_not_mem_cons hp)
  shaped ps _ := ⟨rfl, ps.store_node_next k n, rfl⟩
  congr := by
    rintro node node' p slots ⟨hk, hn, rfl⟩ h
    exact ⟨hk, (h p (List.mem_singleton_self p)).trans hn, rfl⟩
  rings := by
    rintro node p slots ⟨hk, -, rfl⟩
    simp [hk]

theorem makes_fun {ks : List Pool} {make : Maker} {shape : Shape} (k : Pool) (type : ExprType)
    (h : Makes ks make shape) : Makes (k :: ks) (makeFun k type make) (IsFun k type shape) where
  used ps := by
    funext j
    have hj := congrFun (h.used (ps.store k { type := type })) j
    simp only [Pools.store_used, bump_eq_add, Pi.add_apply, List.count_cons, List.count_nil] at hj
    simp only [makeFun, Pools.setLeft_used, hj, Pi.add_apply, List.count_cons]
    omega
  frame ps p hp := by
    obtain ⟨hne, hrest⟩ : p ≠ ps.next k ∧ p ∉ issue (bump ps.used k) ks := by
      simpa [issue_used_cons] using hp
    calc (makeFun k type make ps).2.node p
      _ = (make (ps.store k { type := type })).2.node p := Pools.setLeft_node_of_ne _ hne
      _ = (ps.store k { type := type }).node p := h.frame _ p hrest
      _ = ps.node p := ps.store_node_of_ne hne
  shaped ps hd := by
    rw [issue_used_cons] at hd ⊢
    obtain ⟨hne, hrest⟩ := List.nodup_cons.mp hd
    have hself : (make (ps.store k { type := type })).2.node (ps.next k) = { type := type } := by
      rw [h.frame (ps.store k { type := type }) _ hne, Pools.store_node_next]
    have harg := h.shaped (ps.store k { type := type }) hrest
    refine ⟨_, _, rfl, ?_, h.congr harg fun q hq => ?_, rfl⟩
    · simp [makeFun, funNode, hself]
    · exact Pools.setLeft_node_of_ne _ fun heq => hne (heq ▸ hq)
  congr := by
    rintro node node' p slots ⟨a, rest, hk, hn, harg, rfl⟩ heq
    have htail : ∀ q ∈ rest, node' q = node q := fun q hq => heq q (List.mem_cons_of_mem p hq)
    exact ⟨a, rest, hk, (heq p List.mem_cons_self).trans hn, h.congr harg htail, rfl⟩
  rings := by
    rintro node p slots ⟨a, rest, hk, -, harg, rfl⟩
    rw [List.map_cons, hk, h.rings harg]

theorem makes_op {ks js : List Pool} {left right : Maker} {ls rs : Shape} (k : Pool) (type : ExprType)
    (hl : Makes ks left ls) (hr : Makes js right rs) :
    Makes (ks ++ (js ++ [k])) (makeOp k type left right) (IsOp k type ls rs) := by
  -- the requests of the three parts, each from where the one before has left the counters
  have hissue (ps : Pools) : (issue ps.used (ks ++ (js ++ [k])) : List Ptr) = issue ps.used ks ++
      (issue (left ps).2.used js ++ [(right (left ps).2).2.next k]) := by
    rw [issue_append, issue_append, ← hl.used, ← hr.used]
    rfl
  constructor
  · intro ps
    funext j
    simp only [makeOp, Pools.store_used, bump_eq_add, hr.used, hl.used, Pi.add_apply, List.count_append]
    omega
  · intro ps p hp
    simp only [hissue, List.mem_append, List.mem_singleton, not_or] at hp
    obtain ⟨hpl, hpr, hpk⟩ := hp
    calc (makeOp k type left right ps).2.node p
      _ = (right (left ps).2).2.node p := Pools.store_node_of_ne _ hpk
      _ = (left ps).2.node p := hr.frame _ p hpr
      _ = ps.node p := hl.frame ps p hpl
  · intro ps hd
    rw [hissue] at hd ⊢
    obtain ⟨hdl, hdr, hlr⟩ := List.nodup_append.mp hd
    obtain ⟨hdr, -, hrk⟩ := List.nodup_append.mp hdr
    have htop : ∀ q ∈ issue (left ps).2.used js, q ≠ (right (left ps).2).2.next k := fun q hq =>
      hrk q hq _ (List.mem_singleton_self _)
    refine ⟨_, _, _, _, rfl, Pools.store_node_next _ _ _, hl.congr (hl.shaped ps hdl) fun q hq => ?_,
      hr.congr (hr.shaped _ hdr) fun q hq => Pools.store_node_of_ne _ (htop q hq), rfl⟩
    have hright : q ∉ issue (left ps).2.used js := fun hmem =>
      hlr q hq q (List.mem_append_left _ hmem) rfl
    have hne : q ≠ (right (left ps).2).2.next k := hlr q hq _ (by simp)
    exact (Pools.store_node_of_ne _ hne).trans (hr.frame _ q hright)
  · rintro node node' p slots ⟨l, lslots, r, rslots, hk, hn, hhl, hhr, rfl⟩ heq
    refine ⟨l, lslots, r, rslots, hk, (heq p (by simp)).trans hn, hl.congr hhl fun q hq => heq q ?_,
      hr.congr hhr fun q hq => heq q ?_, rfl⟩ <;> simp [hq]
  · rintro node p slots ⟨l, lslots, r, rslots, hk, -, hhl, hhr, rfl⟩
    simp [hl.rings hhl, hr.rings hhr, hk]

theorem Phrase.makes {ℓ : Level} (e : Phrase ℓ) : Makes e.nodes e.build e.Holds := by
  induction e with
  | number ws neg ds => exact makes_atom _ _
  | string ws q => exact makes_atom _ _
  | field ws ws₁ ds => exact makes_atom _ _
  | name ws n => exact makes_atom _ _
  | length ws => exact makes_atom _ _
  | lengthOf ws ws₁ e ws₂ ih => exact makes_fun _ _ ih
  | int ws ws₁ e ws₂ ih => exact makes_fun _ _ ih
  | paren ws e ws₂ ih => exact ih
  | mulFst e ih => exact ih
  | mul l ws op r ihl ihr => exact makes_op _ _ ihl ihr
  | addFst e ih => exact ih
  | add l ws op r ihl ihr => exact makes_op _ _ ihl ihr
  | cmpFst e ih => exact ih
  | cmp l ws op r ihl ihr => exact makes_op _ _ ihl ihr

end Chicago95.Stage2.AwkTrees
