/-
# Chicago95.Stage2.AwkRegex — the regular expressions of `shell/awk.c`.

`rgx_compile` writes a node for every character, class and postfix operator, and marks the node in front of an operator.
⚠ The matcher compares the type of that node with its mark on, so an operator never finds anything to repeat: after its
one mandatory character `a*` and `a?` go on and `a+` gives up. Every other node asks for a character that is still to be
read, `$` with them, and a class is the list of its characters, ranges not expanded.
-/
import Chicago95.Lib.Anchored
import Mathlib.Data.UInt
import Mathlib.Order.Bounds.Defs

namespace Chicago95.Stage2.Awk

open Chicago95.Lib.Anchored Computability

/-! ## Nodes -/

/-- `rgx_type_t`, of which `RGX_BRANCH` is never used -/
inductive RgxType
  | literal | dot | star | plus | question | charClass | anchorStart | anchorEnd | alt | groupOpen | groupClose
  deriving DecidableEq

/-- `rgx_node_t`: `quantified` is bit 7 of its type, and `charClass` ends at a `NUL`. -/
structure RgxNode where
  type : RgxType
  quantified : Bool
  literal : UInt8
  charClass : List UInt8
  negatedClass : Bool
  deriving DecidableEq

/-- `rgx_compiled_t` -/
structure RgxCompiled where
  nodes : List RgxNode
  valid : Bool

namespace RgxNode

/-- A cleared node of a type. -/
def ofType (type : RgxType) : RgxNode :=
  { type := type, quantified := false, literal := 0, charClass := [], negatedClass := false }

/-- A node for one character. -/
def ofLiteral (c : UInt8) : RgxNode := { ofType .literal with literal := c }

/-- A node for the class between the brackets, at most 63 characters of it. -/
def ofClass (inside : List UInt8) : RgxNode :=
  if inside.head? = some 0x5E then
    { ofType .charClass with negatedClass := true, charClass := (inside.drop 1).take 63 }
  else { ofType .charClass with charClass := inside.take 63 }

/-- `type |= 0x80` -/
def mark (node : RgxNode) : RgxNode := { node with quantified := true }

/-- `node->type == type`, the mark not masked. -/
def is (node : RgxNode) (type : RgxType) : Bool := decide (node.type = type) && !node.quantified

/-- `c` is in `char_class`, or not in it when `negated_class` is set. -/
def inClass (node : RgxNode) (c : UInt8) : Bool :=
  if node.negatedClass then !(node.charClass.takeWhile (· ≠ 0)).contains c
  else (node.charClass.takeWhile (· ≠ 0)).contains c

/-- What the loops of the operators ask of the node in front. -/
def repeats (prev : RgxNode) (c : UInt8) : Bool :=
  if prev.is .literal then c == prev.literal
  else if prev.is .dot then c != 0x0A
  else if prev.is .charClass then prev.inClass c
  else false

@[simp] theorem is_mark (node : RgxNode) (type : RgxType) : node.mark.is type = false := by
  simp [is, mark]

@[simp] theorem repeats_mark (node : RgxNode) (c : UInt8) : node.mark.repeats c = false := by
  simp [repeats]

end RgxNode

/-! ## The compiler -/

/-- The loop of `rgx_find_class_end`. -/
def classEndLoop : List UInt8 → Nat → Option Nat
  | [], _ => none
  | c :: rest, i => if c = 0x5D ∧ 1 < i then some i else classEndLoop rest (i + 1)

def rgxFindClassEnd (p : List UInt8) : Option Nat := classEndLoop (p.drop 1) 1

/-- `out->nodes[out->count - 1].type |= 0x80`, when there is a node. -/
def markLast (nodes : List RgxNode) : List RgxNode :=
  match nodes.getLast? with
  | none => nodes
  | some node => nodes.dropLast ++ [node.mark]

@[simp] theorem markLast_append (nodes : List RgxNode) (node : RgxNode) :
    markLast (nodes ++ [node]) = nodes ++ [node.mark] := by
  simp [markLast]

/-- The loop of `rgx_compile`, over what is left of the pattern. -/
def rgxCompileLoop : Nat → List UInt8 → List RgxNode → List RgxNode
  | 0, _, nodes => nodes
  | _ + 1, [], nodes => nodes
  | fuel + 1, c :: rest, nodes =>
    if 64 ≤ nodes.length then nodes
    else if c = 0x5C then
      match rest with
      | [] => nodes
      | e :: rest => rgxCompileLoop fuel rest (nodes ++ [.ofLiteral e])
    else if c = 0x5E then rgxCompileLoop fuel rest (nodes ++ [.ofType .anchorStart])
    else if c = 0x24 then rgxCompileLoop fuel rest (nodes ++ [.ofType .anchorEnd])
    else if c = 0x2E then rgxCompileLoop fuel rest (nodes ++ [.ofType .dot])
    else if c = 0x2A then rgxCompileLoop fuel rest (markLast nodes ++ [.ofType .star])
    else if c = 0x2B then rgxCompileLoop fuel rest (markLast nodes ++ [.ofType .plus])
    else if c = 0x3F then rgxCompileLoop fuel rest (markLast nodes ++ [.ofType .question])
    else if c = 0x5B then
      match rgxFindClassEnd (c :: rest) with
      | some e => rgxCompileLoop fuel (rest.drop e) (nodes ++ [.ofClass (rest.take (e - 1))])
      | none => rgxCompileLoop fuel rest (nodes ++ [.ofLiteral c])
    else if c = 0x28 then rgxCompileLoop fuel rest (nodes ++ [.ofType .groupOpen])
    else if c = 0x29 then rgxCompileLoop fuel rest (nodes ++ [.ofType .groupClose])
    else if c = 0x7C then rgxCompileLoop fuel rest (nodes ++ [.ofType .alt])
    else rgxCompileLoop fuel rest (nodes ++ [.ofLiteral c])

def rgxCompile (pattern : List UInt8) : RgxCompiled :=
  { nodes := rgxCompileLoop pattern.length pattern [], valid := true }

/-! ## The matcher -/

/-- A text, and the byte behind it. -/
structure Text where
  bytes : List UInt8
  behind : UInt8

namespace Text

/-- `text_len` -/
def len (t : Text) : Nat := t.bytes.length

/-- `text[i]` -/
def byte (t : Text) (i : Nat) : UInt8 := t.bytes.getD i t.behind

end Text

/-- The loop for `RGX_STAR` from `pos`, with the rest of the nodes as `next`. -/
def starLoop (t : Text) (prev : RgxNode) (next : Nat → Bool) : Nat → Nat → Bool
  | 0, pos => next (pos - 1)
  | fuel + 1, pos => if prev.repeats (t.byte pos) then starLoop t prev next fuel (pos + 1) else next pos

/-- The loop for `RGX_PLUS`. -/
def plusLoop (t : Text) (prev : RgxNode) (next : Nat → Bool) : Nat → Bool → Nat → Bool
  | 0, found, pos => found && next pos
  | fuel + 1, found, pos =>
    if prev.repeats (t.byte pos) then plusLoop t prev next fuel true (pos + 1) else found && next pos

/-- `rgx_match_at`, with the node in front of those that are left. -/
def rgxMatchAt (t : Text) : Option RgxNode → List RgxNode → Nat → Bool
  | _, [], _ => true
  | prev, node :: rest, pos =>
    if node.is .star then
      match prev with
      | none => false
      | some prev => starLoop t prev (rgxMatchAt t (some node) rest) (t.len + 1 - pos) pos
    else if node.is .plus then
      match prev with
      | none => false
      | some prev => plusLoop t prev (rgxMatchAt t (some node) rest) (t.len - pos) false pos
    else if node.is .question then
      match prev with
      | none => false
      | some prev =>
        (decide (pos < t.len) && prev.repeats (t.byte pos) && rgxMatchAt t (some node) rest (pos + 1)) ||
          rgxMatchAt t (some node) rest pos
    else if t.len ≤ pos then false
    else
      match node.type with
      | .literal => t.byte pos == node.literal && rgxMatchAt t (some node) rest (pos + 1)
      | .dot => t.byte pos != 0x0A && rgxMatchAt t (some node) rest (pos + 1)
      | .charClass => node.inClass (t.byte pos) && rgxMatchAt t (some node) rest (pos + 1)
      | .anchorStart => decide (pos = 0) && rgxMatchAt t (some node) rest pos
      | .anchorEnd =>
        (decide (t.len ≤ pos) || t.byte pos == 0x0A || t.byte pos == 0) && rgxMatchAt t (some node) rest pos
      | _ => false

def rgxMatch (rx : RgxCompiled) (t : Text) : Bool :=
  match rx.nodes with
  | [] => false
  | first :: rest =>
    if !rx.valid then false
    else if first.is .anchorStart then rgxMatchAt t (some first) rest 0
    else (List.range (t.len + 1)).any fun i => rgxMatchAt t none (first :: rest) i

def rgxFind (rx : RgxCompiled) (t : Text) : Int32 :=
  match rx.nodes with
  | [] => -1
  | first :: rest =>
    if !rx.valid then -1
    else if first.is .anchorStart then if rgxMatchAt t (some first) rest 0 then 0 else -1
    else
      match (List.range t.len).find? fun i => rgxMatchAt t none (first :: rest) i with
      | some i => Int32.ofNat i
      | none => -1

/-! ## Patterns and their language -/

/-- The characters with a meaning of their own outside a class. -/
def special (c : UInt8) : Bool :=
  c ∈ ([0x5C, 0x5E, 0x24, 0x2E, 0x2A, 0x2B, 0x3F, 0x5B, 0x28, 0x29, 0x7C] : List UInt8)

/-- What can stand between `[` and `]`, or between `[^` and `]`. -/
structure ClassBody (negated : Bool) (body : List UInt8) : Prop where
  nonempty : body ≠ []
  open_until : ∀ c ∈ body.drop (if negated then 0 else 1), c ≠ 0x5D
  caret : negated = false → body.head? ≠ some 0x5E

/-- What stands for one character. -/
inductive Atom
  | literal (c : UInt8) (ordinary : special c = false)
  | escaped (c : UInt8)
  | dot
  | charClass (negated : Bool) (body : List UInt8) (closed : ClassBody negated body)

/-- `*`, `+` and `?` -/
inductive Postfix
  | star | plus | question

/-- An anchor, or an atom under its operators. -/
inductive Piece
  | anchorStart
  | anchorEnd
  | atom (a : Atom) (ops : List Postfix)

/-- The nodes of a list of pieces. -/
def nodeCount : List Piece → Nat
  | [] => 0
  | .atom _ ops :: ps => 1 + ops.length + nodeCount ps
  | _ :: ps => 1 + nodeCount ps

/-- A pattern that fits the node table. -/
structure Pattern where
  pieces : List Piece
  fits : nodeCount pieces ≤ 64

/-- How an atom is written. -/
def Atom.render : Atom → List UInt8
  | .literal c _ => [c]
  | .escaped c => [0x5C, c]
  | .dot => [0x2E]
  | .charClass negated body _ => 0x5B :: (if negated then [0x5E] else []) ++ body ++ [0x5D]

/-- How an operator is written. -/
def Postfix.render : Postfix → UInt8
  | .star => 0x2A
  | .plus => 0x2B
  | .question => 0x3F

/-- How a piece is written. -/
def Piece.render : Piece → List UInt8
  | .anchorStart => [0x5E]
  | .anchorEnd => [0x24]
  | .atom a ops => a.render ++ ops.map Postfix.render

/-- How a pattern is written. -/
def Pattern.render (P : Pattern) : List UInt8 := P.pieces.flatMap Piece.render

/-- The characters a class lists, `x-y` for those from `x` to `y`. -/
def classMember : List UInt8 → UInt8 → Bool
  | x :: 0x2D :: y :: rest, c => (x ≤ c && c ≤ y) || classMember rest c
  | x :: rest, c => c == x || classMember rest c
  | [], _ => false

/-- The characters an atom stands for. -/
def Atom.denotes : Atom → UInt8 → Bool
  | .literal l _, c => c == l
  | .escaped l, c => c == l
  | .dot, c => c != 0x0A
  | .charClass negated body _, c => classMember body c != negated

/-- The language under an operator. -/
def Postfix.apply (L : Language UInt8) : Postfix → Language UInt8
  | .star => L∗
  | .plus => L * L∗
  | .question => 1 + L

/-- The language of an atom under its operators. -/
def pieceLanguage (a : Atom) (ops : List Postfix) : Language UInt8 :=
  ops.foldl Postfix.apply (letters {c | a.denotes c})

/-- What a piece asks of a text. -/
def Piece.step : Piece → Step UInt8
  | .anchorStart => .start
  | .anchorEnd => .stop
  | .atom a ops => .word (pieceLanguage a ops)

/-- What a pattern asks of a text. -/
def Pattern.steps (P : Pattern) : List (Step UInt8) := P.pieces.map Piece.step

/-- The two functions do on a text what the language of the pattern says. -/
structure Law (P : Pattern) (t : Text) : Prop where
  match_iff : rgxMatch (rgxCompile P.render) t = true ↔ (Starts P.steps t.bytes).Nonempty
  find_least : ∀ i, IsLeast (Starts P.steps t.bytes) i → (rgxFind (rgxCompile P.render) t).toInt = i
  find_none : Starts P.steps t.bytes = ∅ → rgxFind (rgxCompile P.render) t = -1

/-! ## What is compiled -/

/-- The node of an atom. -/
def Atom.node : Atom → RgxNode
  | .literal c _ => .ofLiteral c
  | .escaped c => .ofLiteral c
  | .dot => .ofType .dot
  | .charClass negated body _ => .ofClass ((if negated then [0x5E] else []) ++ body)

/-- The node of an operator. -/
def Postfix.node : Postfix → RgxNode
  | .star => .ofType .star
  | .plus => .ofType .plus
  | .question => .ofType .question

/-- A node and those of the operators behind it: each operator marks the node in front. -/
def withOps (node : RgxNode) : List Postfix → List RgxNode
  | [] => [node]
  | op :: ops => node.mark :: withOps op.node ops

/-- The nodes of a piece. -/
def Piece.nodes : Piece → List RgxNode
  | .anchorStart => [.ofType .anchorStart]
  | .anchorEnd => [.ofType .anchorEnd]
  | .atom a ops => withOps a.node ops

theorem length_withOps (node : RgxNode) (ops : List Postfix) : (withOps node ops).length = 1 + ops.length := by
  induction ops generalizing node with
  | nil => rfl
  | cons op ops ih => simp only [withOps, List.length_cons, ih]; omega

theorem classEndLoop_append {body rest : List UInt8} (h : ∀ c ∈ body, c ≠ 0x5D) {i : Nat} (hi : 1 < i) :
    classEndLoop (body ++ 0x5D :: rest) i = some (i + body.length) := by
  induction body generalizing i with
  | nil => simp [classEndLoop, hi]
  | cons c body ih =>
    have hc : c ≠ 0x5D := h c (.head _)
    simp only [List.cons_append, classEndLoop, hc, false_and, if_false, List.length_cons]
    rw [ih (fun c hc => h c (.tail _ hc)) (by omega)]
    congr 1
    omega

theorem rgxFindClassEnd_class {negated : Bool} {body : List UInt8} (h : ClassBody negated body) (rest : List UInt8) :
    rgxFindClassEnd (0x5B :: ((if negated then [0x5E] else []) ++ body ++ 0x5D :: rest)) =
      some (1 + ((if negated then [0x5E] else []) ++ body).length) := by
  obtain ⟨hne, hopen, _⟩ := h
  cases negated with
  | true =>
    simp only [if_true, List.drop_zero] at hopen
    have hskip : rgxFindClassEnd (0x5B :: ([0x5E] ++ body ++ 0x5D :: rest)) =
        classEndLoop (body ++ 0x5D :: rest) 2 := by
      simp [rgxFindClassEnd, classEndLoop]
    simp only [if_true]
    rw [hskip, classEndLoop_append hopen (by omega)]
    simp only [List.length_append, List.length_singleton]
    congr 1
    omega
  | false =>
    obtain ⟨c, body, rfl⟩ := List.exists_cons_of_ne_nil hne
    have hskip : rgxFindClassEnd (0x5B :: ([] ++ c :: body ++ 0x5D :: rest)) =
        classEndLoop (body ++ 0x5D :: rest) 2 := by
      simp [rgxFindClassEnd, classEndLoop]
    simp only [Bool.false_eq_true, if_false]
    rw [hskip, classEndLoop_append (by simpa using hopen) (by omega)]
    simp only [List.length_append, List.length_cons, List.length_nil]
    congr 1
    omega

theorem rgxCompileLoop_atom (a : Atom) {nodes : List RgxNode} {rest : List UInt8} {fuel : Nat}
    (hn : nodes.length < 64) (hf : (a.render ++ rest).length ≤ fuel) : ∃ fuel', rest.length ≤ fuel' ∧
      rgxCompileLoop fuel (a.render ++ rest) nodes = rgxCompileLoop fuel' rest (nodes ++ [a.node]) := by
  have hroom : ¬64 ≤ nodes.length := by omega
  obtain ⟨fuel, rfl⟩ : ∃ f, fuel = f + 1 := by
    cases fuel with
    | zero => cases a <;> simp [Atom.render] at hf
    | succ f => exact ⟨f, rfl⟩
  refine ⟨fuel, ?_, ?_⟩
  · cases a <;> simp only [Atom.render, List.length_append, List.length_cons, List.length_nil] at hf <;> omega
  cases a with
  | literal c h =>
    simp only [special, List.mem_cons, List.not_mem_nil, or_false, decide_eq_false_iff_not, not_or] at h
    simp only [Atom.render, List.cons_append, List.nil_append, rgxCompileLoop, hroom, h, if_false, Atom.node]
  | escaped c => simp only [Atom.render, List.cons_append, List.nil_append, rgxCompileLoop, hroom, if_false, if_true, Atom.node]
  | dot => simp [Atom.render, rgxCompileLoop, hroom, Atom.node]
  | charClass negated body closed =>
    have hend := rgxFindClassEnd_class closed rest
    have hform : (Atom.charClass negated body closed).render ++ rest =
        0x5B :: ((if negated then [0x5E] else []) ++ body ++ 0x5D :: rest) := by
      simp [Atom.render]
    have hstep : ∀ inside : List UInt8,
        rgxFindClassEnd (0x5B :: (inside ++ 0x5D :: rest)) = some (1 + inside.length) →
        rgxCompileLoop (fuel + 1) (0x5B :: (inside ++ 0x5D :: rest)) nodes =
          rgxCompileLoop fuel rest (nodes ++ [.ofClass inside]) := by
      intro inside hend
      have hdrop : (inside ++ 0x5D :: rest).drop (1 + inside.length) = rest := by
        rw [Nat.add_comm, ← List.drop_drop, List.drop_left, List.drop_succ_cons, List.drop_zero]
      simp [rgxCompileLoop, hroom, hend, hdrop]
    rw [hform, hstep _ hend]
    rfl

theorem rgxCompileLoop_ops (ops : List Postfix) {node : RgxNode} {nodes : List RgxNode} {rest : List UInt8} {fuel : Nat}
    (hn : nodes.length + (1 + ops.length) ≤ 64) (hf : ops.length + rest.length ≤ fuel) :
    rgxCompileLoop fuel (ops.map Postfix.render ++ rest) (nodes ++ [node]) =
      rgxCompileLoop (fuel - ops.length) rest (nodes ++ withOps node ops) := by
  induction ops generalizing node nodes fuel with
  | nil => rfl
  | cons op ops ih =>
    simp only [List.length_cons] at hn hf
    obtain ⟨fuel, rfl⟩ : ∃ f, fuel = f + 1 := ⟨fuel - 1, by omega⟩
    have hroom : ¬64 ≤ (nodes ++ [node]).length := by
      simp only [List.length_append, List.length_singleton]
      omega
    have hstep : rgxCompileLoop (fuel + 1) ((op :: ops).map Postfix.render ++ rest) (nodes ++ [node]) =
        rgxCompileLoop fuel (ops.map Postfix.render ++ rest) (nodes ++ [node.mark] ++ [op.node]) := by
      cases op <;>
        simp only [List.map_cons, List.cons_append, rgxCompileLoop, hroom, Postfix.render, Postfix.node,
          markLast_append] <;>
        rfl
    rw [hstep, ih (by simp only [List.length_append, List.length_singleton]; omega) (by omega)]
    simp [withOps]

theorem rgxCompileLoop_pieces (ps : List Piece) {nodes : List RgxNode} {fuel : Nat}
    (hn : nodes.length + nodeCount ps ≤ 64) (hf : (ps.flatMap Piece.render).length ≤ fuel) :
    rgxCompileLoop fuel (ps.flatMap Piece.render) nodes = nodes ++ ps.flatMap Piece.nodes := by
  induction ps generalizing nodes fuel with
  | nil => cases fuel <;> simp [rgxCompileLoop]
  | cons p ps ih =>
    cases p with
    | anchorStart =>
      simp only [nodeCount] at hn
      obtain ⟨fuel, rfl⟩ : ∃ f, fuel = f + 1 := ⟨fuel - 1, by simp [Piece.render] at hf; omega⟩
      have hroom : ¬64 ≤ nodes.length := by omega
      simp only [List.flatMap_cons, Piece.render, List.cons_append, List.nil_append, List.length_cons] at hf ⊢
      have hstep : ∀ rest, rgxCompileLoop (fuel + 1) (0x5E :: rest) nodes =
          rgxCompileLoop fuel rest (nodes ++ [.ofType .anchorStart]) := by
        intro rest
        simp [rgxCompileLoop, hroom]
      rw [hstep, ih (by simp only [List.length_append, List.length_singleton]; omega) (by omega)]
      simp [Piece.nodes]
    | anchorEnd =>
      simp only [nodeCount] at hn
      obtain ⟨fuel, rfl⟩ : ∃ f, fuel = f + 1 := ⟨fuel - 1, by simp [Piece.render] at hf; omega⟩
      have hroom : ¬64 ≤ nodes.length := by omega
      simp only [List.flatMap_cons, Piece.render, List.cons_append, List.nil_append, List.length_cons] at hf ⊢
      have hstep : ∀ rest, rgxCompileLoop (fuel + 1) (0x24 :: rest) nodes =
          rgxCompileLoop fuel rest (nodes ++ [.ofType .anchorEnd]) := by
        intro rest
        simp [rgxCompileLoop, hroom]
      rw [hstep, ih (by simp only [List.length_append, List.length_singleton]; omega) (by omega)]
      simp [Piece.nodes]
    | atom a ops =>
      simp only [nodeCount] at hn
      simp only [List.flatMap_cons, Piece.render, List.append_assoc] at hf ⊢
      have hlt : nodes.length < 64 := by omega
      obtain ⟨fuel', hf', hstep⟩ := rgxCompileLoop_atom a hlt hf
      simp only [List.length_append, List.length_map] at hf'
      have hroom : (nodes ++ withOps a.node ops).length + nodeCount ps ≤ 64 := by
        simp only [List.length_append, length_withOps]
        omega
      rw [hstep, rgxCompileLoop_ops ops (by omega) hf', ih hroom (by omega)]
      simp [Piece.nodes]

theorem rgxCompile_render (P : Pattern) :
    rgxCompile P.render = { nodes := P.pieces.flatMap Piece.nodes, valid := true } := by
  have hfits : ([] : List RgxNode).length + nodeCount P.pieces ≤ 64 := by simpa using P.fits
  simp only [rgxCompile, Pattern.render, rgxCompileLoop_pieces P.pieces hfits le_rfl, List.nil_append]

end Chicago95.Stage2.Awk
