/-
# Chicago95.Stage2.AwkMatching — for which patterns `rgx_match` and `rgx_find` keep to the language.

`hits` is `rgx_match_at` over the pieces of a pattern: it takes one character for each atom and nothing else. A pattern
that is satisfiable at all takes some word with one character for each atom that may not be skipped, so the law makes
every atom such a one (`plain_of_law`), and changing one character of that word at a time, every class the list of its
characters. What is left is compared with the language letter by letter.
-/
import Chicago95.Stage2.AwkRegex

namespace Chicago95.Stage2.Awk

open Chicago95.Lib.Anchored Computability

/-! ## The matcher over pieces -/

/-- The characters the node of an atom accepts. -/
def Atom.takes : Atom → UInt8 → Bool
  | .literal l _, c => c == l
  | .escaped l, c => c == l
  | .dot, c => c != 0x0A
  | .charClass negated body _, c => ((body.take 63).takeWhile (· ≠ 0)).contains c != negated

/-- The matcher gets past these operators. -/
def passes : List Postfix → Bool
  | [] => true
  | [.star] => true
  | [.question] => true
  | _ => false

/-- `rgx_match_at` over pieces. -/
def hits (t : Text) : List Piece → Nat → Bool
  | [], _ => true
  | .anchorStart :: ps, pos => decide (pos < t.len) && decide (pos = 0) && hits t ps pos
  | .anchorEnd :: ps, pos => decide (pos < t.len) && (t.byte pos == 0x0A || t.byte pos == 0) && hits t ps pos
  | .atom a ops :: ps, pos =>
    decide (pos < t.len) && a.takes (t.byte pos) && passes ops && hits t ps (pos + 1)

theorem type_ofClass (inside : List UInt8) : (RgxNode.ofClass inside).type = .charClass := by
  unfold RgxNode.ofClass
  split <;> rfl

theorem inClass_node {negated : Bool} {body : List UInt8} (closed : ClassBody negated body) (c : UInt8) :
    (Atom.charClass negated body closed).node.inClass c = (Atom.charClass negated body closed).takes c := by
  cases negated with
  | true => simp [Atom.node, RgxNode.ofClass, RgxNode.inClass, RgxNode.ofType, Atom.takes]
  | false => simp [Atom.node, RgxNode.ofClass, RgxNode.inClass, RgxNode.ofType, closed.caret rfl, Atom.takes]

theorem is_node (a : Atom) {type : RgxType} (h : type ≠ .literal ∧ type ≠ .dot ∧ type ≠ .charClass) :
    a.node.is type = false := by
  obtain ⟨hl, hd, hc⟩ := h
  cases a with
  | literal c _ => simp [RgxNode.is, Atom.node, RgxNode.ofLiteral, RgxNode.ofType, hl.symm]
  | escaped c => simp [RgxNode.is, Atom.node, RgxNode.ofLiteral, RgxNode.ofType, hl.symm]
  | dot => simp [RgxNode.is, Atom.node, RgxNode.ofType, hd.symm]
  | charClass negated body _ => simp [RgxNode.is, Atom.node, type_ofClass, hc.symm]

theorem rgxMatchAt_atom (t : Text) (a : Atom) {node : RgxNode} (hnode : node = a.node ∨ node = a.node.mark)
    (prev : Option RgxNode) (rest : List RgxNode) {pos : Nat} : rgxMatchAt t prev (node :: rest) pos =
      (decide (pos < t.len) && a.takes (t.byte pos) && rgxMatchAt t (some node) rest (pos + 1)) := by
  have hop : ∀ type, type ≠ .literal ∧ type ≠ .dot ∧ type ≠ .charClass → node.is type = false := by
    intro type htype
    obtain rfl | rfl := hnode
    · exact is_node a htype
    · exact RgxNode.is_mark _ _
  simp only [rgxMatchAt, hop .star (by decide), hop .plus (by decide), hop .question (by decide), Bool.false_eq_true,
    if_false]
  by_cases hpos : pos < t.len
  · rw [if_neg (Nat.not_le.2 hpos), decide_eq_true hpos, Bool.true_and]
    have htype : node.type = a.node.type := by
      obtain rfl | rfl := hnode <;> rfl
    have hclass : node.inClass = a.node.inClass := by
      obtain rfl | rfl := hnode <;> rfl
    have hliteral : node.literal = a.node.literal := by
      obtain rfl | rfl := hnode <;> rfl
    rw [htype, hclass, hliteral]
    cases a with
    | literal c _ => rfl
    | escaped c => rfl
    | dot => rfl
    | charClass negated body closed =>
      rw [inClass_node closed]
      simp only [Atom.node, type_ofClass]
  · rw [if_pos (Nat.not_lt.1 hpos), decide_eq_false hpos, Bool.false_and, Bool.false_and]

theorem rgxMatchAt_ops (t : Text) {prev : RgxNode} (ops : List Postfix) (hops : ops ≠ []) {pos : Nat}
    (hpos : pos ≤ t.len) {rest : List RgxNode} {next : Bool} (hnext : ∀ prev, rgxMatchAt t prev rest pos = next) :
    ∀ node nodes, withOps prev ops = node :: nodes →
      rgxMatchAt t (some prev.mark) (nodes ++ rest) pos = (passes ops && next) := by
  intro node nodes h
  cases ops with
  | nil => exact absurd rfl hops
  | cons op ops =>
    obtain ⟨rfl, rfl⟩ := List.cons.inj h
    cases ops with
    | nil =>
      have hfuel : ∃ fuel, t.len + 1 - pos = fuel + 1 := ⟨t.len - pos, by omega⟩
      obtain ⟨fuel, hfuel⟩ := hfuel
      cases op with
      | star => simp [withOps, rgxMatchAt, Postfix.node, RgxNode.is, RgxNode.ofType, hfuel, starLoop, hnext, passes]
      | plus =>
        cases hlen : t.len - pos <;>
          simp [withOps, rgxMatchAt, Postfix.node, RgxNode.is, RgxNode.ofType, plusLoop, passes, hlen]
      | question => simp [withOps, rgxMatchAt, Postfix.node, RgxNode.is, RgxNode.ofType, hnext, passes]
    | cons op' ops =>
      have hstuck : passes (op :: op' :: ops) = false := by cases op <;> rfl
      rw [hstuck, Bool.false_and]
      cases op <;> simp [withOps, rgxMatchAt, Postfix.node, RgxNode.ofType, RgxNode.mark, RgxNode.is]

theorem rgxMatchAt_pieces (t : Text) (ps : List Piece) (prev : Option RgxNode) {pos : Nat} (hpos : pos ≤ t.len) :
    rgxMatchAt t prev (ps.flatMap Piece.nodes) pos = hits t ps pos := by
  induction ps generalizing prev pos with
  | nil => rfl
  | cons p ps ih =>
    simp only [List.flatMap_cons]
    cases p with
    | anchorStart =>
      simp only [Piece.nodes, List.cons_append, List.nil_append, rgxMatchAt, hits]
      by_cases hlt : pos < t.len
      · simp [RgxNode.is, RgxNode.ofType, hlt, ih _ hpos]
      · simp [RgxNode.is, RgxNode.ofType, hlt, Nat.not_lt.1 hlt]
    | anchorEnd =>
      simp only [Piece.nodes, List.cons_append, List.nil_append, rgxMatchAt, hits]
      by_cases hlt : pos < t.len
      · simp [RgxNode.is, RgxNode.ofType, hlt, Nat.not_le.2 hlt, ih _ hpos]
      · simp [RgxNode.is, RgxNode.ofType, hlt, Nat.not_lt.1 hlt]
    | atom a ops =>
      simp only [Piece.nodes, hits]
      cases ops with
      | nil =>
        simp only [withOps, List.cons_append, List.nil_append, rgxMatchAt_atom t a (.inl rfl), passes,
          Bool.and_true]
        by_cases hlt : pos < t.len
        · rw [ih _ hlt]
        · simp [hlt]
      | cons op ops =>
        obtain ⟨nodes, hnodes⟩ : ∃ nodes, withOps a.node (op :: ops) = a.node.mark :: nodes := ⟨_, rfl⟩
        rw [hnodes, List.cons_append, rgxMatchAt_atom t a (.inr rfl)]
        by_cases hlt : pos < t.len
        · rw [rgxMatchAt_ops t (op :: ops) (List.cons_ne_nil _ _) hlt (fun prev => ih prev hlt) _ _ hnodes,
            Bool.and_assoc, Bool.and_assoc, Bool.and_assoc]
        · simp [hlt]

/-! ## The two functions -/

/-- What the two functions try at `i`: behind a first `^` only the start of the text. -/
def tries (t : Text) : List Piece → Nat → Bool
  | [], _ => false
  | .anchorStart :: ps, i => decide (i = 0) && hits t ps 0
  | ps, i => hits t ps i

theorem nodes_head {p : Piece} (hp : p ≠ .anchorStart) (ps : List Piece) :
    ∃ first rest, (p :: ps).flatMap Piece.nodes = first :: rest ∧ first.is .anchorStart = false := by
  cases p with
  | anchorStart => exact absurd rfl hp
  | anchorEnd => exact ⟨_, _, rfl, rfl⟩
  | atom a ops =>
    cases ops with
    | nil => exact ⟨_, _, rfl, is_node a (by decide)⟩
    | cons op ops => exact ⟨_, _, rfl, RgxNode.is_mark _ _⟩

theorem tries_free {p : Piece} (hp : p ≠ .anchorStart) (ps : List Piece) (t : Text) (i : Nat) :
    tries t (p :: ps) i = hits t (p :: ps) i := by
  cases p with
  | anchorStart => exact absurd rfl hp
  | anchorEnd => rfl
  | atom a ops => rfl

theorem rgxMatch_iff (P : Pattern) (t : Text) :
    rgxMatch (rgxCompile P.render) t = true ↔ ∃ i ≤ t.len, tries t P.pieces i = true := by
  rw [rgxCompile_render]
  cases hps : P.pieces with
  | nil => simp [rgxMatch, tries]
  | cons p ps =>
    by_cases hp : p = .anchorStart
    · subst hp
      have hmatch := rgxMatchAt_pieces t ps (some (.ofType .anchorStart)) (Nat.zero_le t.len)
      have hfirst : (RgxNode.ofType .anchorStart).is .anchorStart = true := rfl
      simp only [List.flatMap_cons, Piece.nodes, List.cons_append, List.nil_append, rgxMatch, Bool.not_true,
        Bool.false_eq_true, hfirst, if_true, if_false, hmatch, tries, Bool.and_eq_true, decide_eq_true_eq]
      refine ⟨fun h => ⟨0, Nat.zero_le _, rfl, h⟩, fun h => ?_⟩
      obtain ⟨_, _, _, h⟩ := h
      exact h
    · obtain ⟨first, rest, hnodes, hfirst⟩ := nodes_head hp ps
      simp only [hnodes, rgxMatch, Bool.not_true, Bool.false_eq_true, hfirst, if_false, List.any_eq_true,
        List.mem_range, Nat.lt_succ_iff]
      refine exists_congr fun i => and_congr_right fun hi => ?_
      rw [← hnodes, rgxMatchAt_pieces t (p :: ps) none hi, tries_free hp]

theorem rgxFind_none (P : Pattern) (t : Text) (h : ∀ i, tries t P.pieces i = false) :
    rgxFind (rgxCompile P.render) t = -1 := by
  rw [rgxCompile_render]
  cases hps : P.pieces with
  | nil => rfl
  | cons p ps =>
    rw [hps] at h
    by_cases hp : p = .anchorStart
    · subst hp
      have hmatch := rgxMatchAt_pieces t ps (some (.ofType .anchorStart)) (Nat.zero_le t.len)
      have hfirst : (RgxNode.ofType .anchorStart).is .anchorStart = true := rfl
      have h0 : hits t ps 0 = false := by simpa [tries] using h 0
      simp only [List.flatMap_cons, Piece.nodes, List.cons_append, List.nil_append, rgxFind, Bool.not_true,
        Bool.false_eq_true, hfirst, if_true, if_false, hmatch, h0]
    · obtain ⟨first, rest, hnodes, hfirst⟩ := nodes_head hp ps
      have hfind : ((List.range t.len).find? fun i => rgxMatchAt t none (first :: rest) i) = none := by
        refine List.find?_eq_none.2 fun i hi => ?_
        rw [← hnodes, rgxMatchAt_pieces t (p :: ps) none (List.mem_range.1 hi).le, ← tries_free hp, h i]
        decide
      simp only [hnodes, rgxFind, Bool.not_true, Bool.false_eq_true, hfirst, if_false, hfind]

theorem rgxFind_least (P : Pattern) (t : Text) {i : Nat} (h : IsLeast {i | tries t P.pieces i = true} i)
    (hi : i < t.len ∨ P.pieces.head? = some .anchorStart) : rgxFind (rgxCompile P.render) t = Int32.ofNat i := by
  rw [rgxCompile_render]
  obtain ⟨htry, hleast⟩ := h
  cases hps : P.pieces with
  | nil =>
    rw [hps] at htry
    cases htry
  | cons p ps =>
    rw [hps] at htry hleast hi
    by_cases hp : p = .anchorStart
    · subst hp
      have hmatch := rgxMatchAt_pieces t ps (some (.ofType .anchorStart)) (Nat.zero_le t.len)
      have hfirst : (RgxNode.ofType .anchorStart).is .anchorStart = true := rfl
      obtain ⟨rfl, h0⟩ : i = 0 ∧ hits t ps 0 = true := by simpa [tries] using htry
      simp only [List.flatMap_cons, Piece.nodes, List.cons_append, List.nil_append, rgxFind, Bool.not_true,
        Bool.false_eq_true, hfirst, if_true, if_false, hmatch, h0]
      rfl
    · have hlt : i < t.len := hi.resolve_right fun he => hp (Option.some.inj he)
      obtain ⟨first, rest, hnodes, hfirst⟩ := nodes_head hp ps
      have hat : ∀ j ≤ t.len, rgxMatchAt t none (first :: rest) j = tries t (p :: ps) j := by
        intro j hj
        rw [← hnodes, rgxMatchAt_pieces t (p :: ps) none hj, tries_free hp]
      have hfind : ((List.range t.len).find? fun i => rgxMatchAt t none (first :: rest) i) = some i := by
        refine List.find?_range_eq_some.2 ⟨?_, List.mem_range.2 hlt, fun j hj => ?_⟩
        · rw [hat i hlt.le]
          exact htry
        · rw [hat j (hj.trans hlt).le, Bool.not_eq_true']
          exact Bool.eq_false_iff.2 fun hj' => absurd (hleast hj') (Nat.not_le.2 hj)
      simp only [hnodes, rgxFind, Bool.not_true, Bool.false_eq_true, hfirst, if_false, hfind]

theorem law_of_tries {P : Pattern} {t : Text} (hlen : t.len < 2 ^ 31)
    (h : ∀ i, tries t P.pieces i = true ↔ i ∈ Starts P.steps t.bytes)
    (hend : ∀ i, tries t P.pieces i = true → i < t.len ∨ P.pieces.head? = some .anchorStart) : Law P t := by
  have hset : {i | tries t P.pieces i = true} = Starts P.steps t.bytes := Set.ext h
  constructor
  · rw [rgxMatch_iff]
    exact ⟨fun ⟨i, _, hi⟩ => ⟨i, (h i).1 hi⟩, fun ⟨i, hi⟩ => ⟨i, le_length_of_mem_starts hi, (h i).2 hi⟩⟩
  · intro i hi
    rw [← hset] at hi
    have hle : i ≤ t.len := le_length_of_mem_starts ((h i).1 hi.1)
    rw [rgxFind_least P t hi (hend i hi.1), Int32.toInt_ofNat_of_lt (by omega)]
  · intro hempty
    refine rgxFind_none P t fun i => Bool.eq_false_iff.2 fun hi => ?_
    have hmem := (h i).1 hi
    rw [hempty] at hmem
    exact hmem

/-! ## Patterns the matcher answers to -/

/-- Some text makes the matcher succeed: `s` when an atom stands in front, `d` when a `$` stands between. -/
def Responds : Bool → Bool → List Piece → Prop
  | _, _, [] => True
  | s, d, .anchorStart :: ps => s = false ∧ Responds s d ps
  | s, _, .anchorEnd :: ps => Responds s true ps
  | _, d, .atom a ops :: ps =>
    passes ops = true ∧ (∃ c, a.takes c = true ∧ (d = true → c = 0x0A ∨ c = 0)) ∧ Responds true false ps

theorem responds_of_hits {t : Text} {ps : List Piece} {s d : Bool} {pos : Nat} (h : hits t ps pos = true)
    (hs : s = true → pos ≠ 0) (hd : d = true → t.byte pos = 0x0A ∨ t.byte pos = 0) : Responds s d ps := by
  induction ps generalizing s d pos with
  | nil => trivial
  | cons p ps ih =>
    cases p with
    | anchorStart =>
      simp only [hits, Bool.and_eq_true, decide_eq_true_eq] at h
      exact ⟨Bool.eq_false_iff.2 fun he => hs he h.1.2, ih h.2 hs hd⟩
    | anchorEnd =>
      simp only [hits, Bool.and_eq_true, Bool.or_eq_true, beq_iff_eq] at h
      exact ih h.2 hs fun _ => h.1.2
    | atom a ops =>
      simp only [hits, Bool.and_eq_true] at h
      exact ⟨h.1.2, ⟨_, h.1.1.2, hd⟩, ih h.2 (fun _ => Nat.succ_ne_zero pos) fun hd => by cases hd⟩

theorem byte_append {u v : List UInt8} (x y : UInt8) : Text.byte ⟨u ++ x :: v, y⟩ u.length = x := by
  simp [Text.byte]

theorem hits_of_responds {ps : List Piece} {s d : Bool} (h : Responds s d ps) {u : List UInt8}
    (hs : s = false → u = []) :
    ∃ x v, v.length ≤ ps.length ∧ (d = true → x = 0x0A ∨ x = 0) ∧ hits ⟨u ++ x :: v, 0⟩ ps u.length = true := by
  induction ps generalizing s d u with
  | nil => exact ⟨0x0A, [], le_rfl, fun _ => .inl rfl, rfl⟩
  | cons p ps ih =>
    have hlt : ∀ (x : UInt8) v, u.length < Text.len ⟨u ++ x :: v, 0⟩ := by
      intro x v
      simp only [Text.len, List.length_append, List.length_cons]
      omega
    cases p with
    | anchorStart =>
      obtain ⟨x, v, hv, hx, hhit⟩ := ih h.2 hs
      refine ⟨x, v, hv.trans (Nat.le_succ _), hx, ?_⟩
      obtain rfl : u = [] := hs h.1
      simp only [hits, Bool.and_eq_true, decide_eq_true_eq]
      exact ⟨⟨hlt x v, rfl⟩, hhit⟩
    | anchorEnd =>
      obtain ⟨x, v, hv, hx, hhit⟩ := ih (d := true) h hs
      refine ⟨x, v, hv.trans (Nat.le_succ _), fun _ => hx rfl, ?_⟩
      have hbyte : (x == 0x0A || x == 0) = true := by simpa using hx rfl
      simp only [hits, hlt, hhit, byte_append, hbyte, decide_true, Bool.and_true]
    | atom a ops =>
      obtain ⟨hops, ⟨c, hc, hd⟩, h⟩ := h
      obtain ⟨x, v, hv, _, hhit⟩ := ih (u := u ++ [c]) h fun he => by cases he
      have happ : u ++ [c] ++ x :: v = u ++ c :: x :: v := by simp
      rw [happ, List.length_append] at hhit
      refine ⟨c, x :: v, Nat.succ_le_succ hv, hd, ?_⟩
      simp only [hits, hlt, byte_append, hc, hops, decide_true, Bool.and_true, Bool.true_and]
      exact hhit

theorem responds_of_tries {t : Text} {ps : List Piece} {i : Nat} (h : tries t ps i = true) :
    Responds false false ps := by
  have hfree : ∀ {ps : List Piece} {j : Nat}, hits t ps j = true → Responds false false ps := fun h =>
    responds_of_hits h (fun he => by cases he) fun he => by cases he
  cases ps with
  | nil => trivial
  | cons p ps =>
    by_cases hp : p = .anchorStart
    · subst hp
      simp only [tries, Bool.and_eq_true] at h
      exact ⟨rfl, hfree h.2⟩
    · rw [tries_free hp] at h
      exact hfree h

theorem tries_of_responds {p : Piece} {ps : List Piece} (h : Responds false false (p :: ps)) :
    ∃ t : Text, t.len ≤ ps.length + 2 ∧ tries t (p :: ps) 0 = true := by
  by_cases hp : p = .anchorStart
  · subst hp
    obtain ⟨x, v, hv, _, hhit⟩ := hits_of_responds h.2 (u := []) fun _ => rfl
    refine ⟨⟨x :: v, 0⟩, ?_, ?_⟩
    · simp only [Text.len, List.length_cons]
      omega
    · simpa [tries] using hhit
  · obtain ⟨x, v, hv, _, hhit⟩ := hits_of_responds h (u := []) fun _ => rfl
    refine ⟨⟨x :: v, 0⟩, ?_, ?_⟩
    · simp only [Text.len, List.length_cons] at hv ⊢
      omega
    · rw [tries_free hp]
      simpa using hhit

/-! ## Patterns that keep to their language -/

/-- Start anchors, and atoms without operators. -/
def anchored (n : Nat) (as : List Atom) : List Piece :=
  List.replicate n .anchorStart ++ as.map fun a => .atom a []

/-- Start anchors, and atoms without operators whose nodes accept what they stand for; or a `^` alone. -/
def Plain (ps : List Piece) : Prop :=
  ps = [.anchorStart] ∨ ∃ n as, as ≠ [] ∧ ps = anchored n as ∧ ∀ a ∈ as, ∀ c, a.takes c = a.denotes c

/-- The sets of characters that atoms stand for, and that their nodes accept. -/
def denoteSets (as : List Atom) : List (Set UInt8) := as.map fun a => {c | a.denotes c}

def takeSets (as : List Atom) : List (Set UInt8) := as.map fun a => {c | a.takes c}

theorem steps_anchored (n : Nat) (as : List Atom) : (anchored n as).map Piece.step = lettersFrom n (denoteSets as) := by
  simp only [anchored, lettersFrom, denoteSets, List.map_append, List.map_replicate, List.map_map]
  rfl

theorem Text.byte_eq {t : Text} {i : Nat} (h : i < t.bytes.length) : t.byte i = t.bytes[i] := by
  simp [Text.byte, List.getElem?_eq_getElem h]

theorem hits_atoms (t : Text) (as : List Atom) {pos : Nat} (hpos : pos ≤ t.len) : hits t (anchored 0 as) pos = true ↔
      ∃ w after, t.bytes.drop pos = w ++ after ∧ List.Forall₂ (fun A c => c ∈ A) (takeSets as) w := by
  induction as generalizing pos with
  | nil => exact ⟨fun _ => ⟨[], _, rfl, .nil⟩, fun _ => rfl⟩
  | cons a as ih =>
    have hcons : anchored 0 (a :: as) = .atom a [] :: anchored 0 as := rfl
    simp only [hcons, hits, passes, Bool.and_true, Bool.and_eq_true, decide_eq_true_eq]
    constructor
    · rintro ⟨⟨hlt, htake⟩, h⟩
      obtain ⟨w, after, hdrop, hw⟩ := (ih hlt).1 h
      refine ⟨t.byte pos :: w, after, ?_, .cons htake hw⟩
      rw [List.drop_eq_getElem_cons hlt, hdrop, Text.byte_eq hlt, List.cons_append]
    · rintro ⟨_, after, hdrop, hw⟩
      obtain ⟨c, w, hc, hw', rfl⟩ := List.forall₂_cons_left_iff.1 hw
      have hlt : pos < t.bytes.length := by
        have hsize := congrArg List.length hdrop
        simp only [List.length_drop, List.length_append, List.length_cons] at hsize
        omega
      rw [List.drop_eq_getElem_cons hlt, List.cons_append] at hdrop
      obtain ⟨hhead, hdrop⟩ := List.cons.inj hdrop
      refine ⟨⟨hlt, ?_⟩, (ih hlt).2 ⟨w, after, hdrop, hw'⟩⟩
      rw [Text.byte_eq hlt, hhead]
      exact hc

theorem hits_anchored (t : Text) (n : Nat) {as : List Atom} (has : as ≠ []) {pos : Nat} :
    hits t (anchored n as) pos = true ↔ (n ≠ 0 → pos = 0) ∧ hits t (anchored 0 as) pos = true := by
  induction n with
  | zero => simp
  | succ n ih =>
    have hcons : anchored (n + 1) as = .anchorStart :: anchored n as := rfl
    obtain ⟨a, as, rfl⟩ := List.exists_cons_of_ne_nil has
    have hcons' : anchored 0 (a :: as) = .atom a [] :: anchored 0 as := rfl
    simp only [hcons, hits, Bool.and_eq_true, decide_eq_true_eq, ih]
    simp only [hcons', hits, Bool.and_eq_true, decide_eq_true_eq]
    tauto

theorem tries_anchored (t : Text) (n : Nat) {as : List Atom} (has : as ≠ []) {i : Nat} :
    tries t (anchored n as) i = true ↔ i ∈ Starts (lettersFrom n (takeSets as)) t.bytes := by
  rw [mem_starts_lettersFrom]
  cases n with
  | zero =>
    obtain ⟨a, as, rfl⟩ := List.exists_cons_of_ne_nil has
    have hfree : tries t (anchored 0 (a :: as)) i = hits t (anchored 0 (a :: as)) i := rfl
    rw [hfree]
    constructor
    · intro h
      have hlt : i < t.len := by
        have hcons : anchored 0 (a :: as) = .atom a [] :: anchored 0 as := rfl
        simp only [hcons, hits, Bool.and_eq_true, decide_eq_true_eq] at h
        exact h.1.1.1
      exact ⟨hlt.le, fun h0 => absurd rfl h0, (hits_atoms t _ hlt.le).1 h⟩
    · exact fun ⟨hi, _, h⟩ => (hits_atoms t _ hi).2 h
  | succ n =>
    have hcons : anchored (n + 1) as = .anchorStart :: anchored n as := rfl
    simp only [hcons, tries, Bool.and_eq_true, decide_eq_true_eq, hits_anchored t n has,
      hits_atoms t as (Nat.zero_le _)]
    constructor
    · rintro ⟨rfl, _, h⟩
      exact ⟨Nat.zero_le _, fun _ => rfl, h⟩
    · rintro ⟨_, hn, h⟩
      obtain rfl : i = 0 := hn (Nat.succ_ne_zero n)
      exact ⟨rfl, fun _ => trivial, h⟩

theorem law_of_plain {P : Pattern} (h : Plain P.pieces) {t : Text} (hlen : t.len < 2 ^ 31) : Law P t := by
  rcases h with hps | ⟨n, as, has, hps, hsame⟩
  · refine law_of_tries hlen (fun i => ?_) fun i _ => .inr (by rw [hps]; rfl)
    have hsteps : P.steps = lettersFrom 1 [] := by
      rw [Pattern.steps, hps]
      rfl
    rw [hsteps, mem_starts_lettersFrom, hps]
    simp only [tries, hits, Bool.and_true, decide_eq_true_eq]
    constructor
    · rintro rfl
      exact ⟨Nat.zero_le _, fun _ => rfl, [], _, rfl, .nil⟩
    · exact fun ⟨_, h0, _⟩ => h0 Nat.one_ne_zero
  · have hsets : takeSets as = denoteSets as := List.map_congr_left fun a ha => by simp only [hsame a ha]
    refine law_of_tries hlen (fun i => ?_) fun i hi => ?_
    · rw [hps, tries_anchored t n has, Pattern.steps, hps, steps_anchored, hsets]
    · rw [hps, tries_anchored t n has] at hi
      obtain ⟨_, _, w, after, hdrop, hw⟩ := mem_starts_lettersFrom.1 hi
      have hsize := congrArg List.length hdrop
      have hwlen := hw.length_eq
      have hpos := List.length_pos_of_ne_nil has
      simp only [takeSets, List.length_map, List.length_drop, List.length_append] at hwlen hsize
      refine .inl ?_
      simp only [Text.len]
      omega

/-! ## The short word of a pattern -/

/-- The atoms of a list of pieces. -/
def atomCount : List Piece → Nat
  | [] => 0
  | .atom _ _ :: ps => 1 + atomCount ps
  | _ :: ps => atomCount ps

theorem atomCount_le (ps : List Piece) : atomCount ps ≤ nodeCount ps := by
  induction ps with
  | nil => exact le_rfl
  | cons p ps ih => cases p <;> simp only [atomCount, nodeCount] <;> omega

theorem length_le_nodeCount (ps : List Piece) : ps.length ≤ nodeCount ps := by
  induction ps with
  | nil => exact le_rfl
  | cons p ps ih => cases p <;> simp only [List.length_cons, nodeCount] <;> omega

theorem atomCount_anchored (n : Nat) (as : List Atom) : atomCount (anchored n as) = as.length := by
  induction n with
  | zero =>
    induction as with
    | nil => rfl
    | cons a as ih =>
      have hcons : anchored 0 (a :: as) = .atom a [] :: anchored 0 as := rfl
      rw [hcons, atomCount, ih, List.length_cons, Nat.add_comm]
  | succ n ih => exact ih

theorem le_of_hits {t : Text} {ps : List Piece} {pos : Nat} (hpos : pos ≤ t.len) (h : hits t ps pos = true) :
    pos + atomCount ps ≤ t.len := by
  induction ps generalizing pos with
  | nil => exact hpos
  | cons p ps ih =>
    cases p with
    | anchorStart =>
      simp only [hits, Bool.and_eq_true] at h
      exact ih hpos h.2
    | anchorEnd =>
      simp only [hits, Bool.and_eq_true] at h
      exact ih hpos h.2
    | atom a ops =>
      simp only [hits, Bool.and_eq_true, decide_eq_true_eq] at h
      have hle := ih h.1.1.1 h.2
      simp only [atomCount]
      omega

theorem demand_le (ps : List Piece) : demand (ps.map Piece.step) ≤ atomCount ps := by
  induction ps with
  | nil => exact le_rfl
  | cons p ps ih =>
    cases p with
    | anchorStart => exact ih
    | anchorEnd => exact ih
    | atom a ops =>
      simp only [List.map_cons, Piece.step, demand, atomCount]
      split <;> omega

theorem short_pieceLanguage (a : Atom) (ops : List Postfix) : Short (pieceLanguage a ops) := by
  unfold pieceLanguage
  generalize hL : letters {c | a.denotes c = true} = L
  have hshort : Short L := hL ▸ short_letters _
  clear hL
  induction ops generalizing L with
  | nil => exact hshort
  | cons op ops ih =>
    refine ih _ ?_
    cases op with
    | star => exact short_of_nil_mem (Language.nil_mem_kstar L)
    | plus => exact hshort.mul_kstar
    | question => exact short_of_nil_mem (.inl rfl)

theorem short_steps (P : Pattern) : ∀ L, Step.word L ∈ P.steps → Short L := by
  intro L hL
  obtain ⟨p, _, hp⟩ := List.mem_map.1 hL
  cases p with
  | anchorStart => cases hp
  | anchorEnd => cases hp
  | atom a ops =>
    cases hp
    exact short_pieceLanguage a ops

theorem ops_eq_nil {a : Atom} {ops : List Postfix} (hops : passes ops = true) (h : [] ∉ pieceLanguage a ops) :
    ops = [] := by
  match ops, hops with
  | [], _ => rfl
  | [.star], _ => exact absurd (Language.nil_mem_kstar _) h
  | [.question], _ => exact absurd (.inl rfl) h

theorem anchored_of_hits {t : Text} {ps : List Piece} {pos : Nat} (h : hits t ps pos = true)
    (hlen : pos + atomCount ps = t.len) (hdemand : demand (ps.map Piece.step) = atomCount ps)
    {before : List UInt8} (hread : Reads (ps.map Piece.step) before (t.bytes.drop pos) []) :
    ∃ n as, ps = anchored n as ∧ (before ≠ [] → n = 0) := by
  induction ps generalizing pos before with
  | nil => exact ⟨0, [], rfl, fun _ => rfl⟩
  | cons p ps ih =>
    cases p with
    | anchorStart =>
      simp only [hits, Bool.and_eq_true] at h
      obtain ⟨rfl, hread⟩ := hread
      obtain ⟨n, as, rfl, _⟩ := ih h.2 hlen hdemand hread
      exact ⟨n + 1, as, rfl, fun hne => absurd rfl hne⟩
    | anchorEnd =>
      simp only [hits, Bool.and_eq_true, decide_eq_true_eq] at h
      obtain ⟨hend, _⟩ := hread
      have hnil := List.drop_eq_nil_iff.1 (List.append_eq_nil_iff.1 hend).1
      exact absurd h.1.1 (Nat.not_lt.2 hnil)
    | atom a ops =>
      simp only [hits, Bool.and_eq_true] at h
      simp only [List.map_cons, Piece.step, demand, atomCount] at hdemand hlen
      have hle := demand_le ps
      by_cases hnil : [] ∈ pieceLanguage a ops
      · simp only [hnil, if_true] at hdemand
        omega
      · obtain rfl := ops_eq_nil h.1.2 hnil
        obtain ⟨u, v, huv, ⟨c, _, rfl⟩, hread⟩ := hread
        have hv : v = t.bytes.drop (pos + 1) := by
          rw [← List.drop_drop, huv]
          rfl
        rw [hv] at hread
        simp only [hnil, if_false] at hdemand
        obtain ⟨n, as, rfl, hn⟩ := ih h.2 (by omega) (by omega) hread
        obtain rfl : n = 0 := hn (by simp)
        exact ⟨0, a :: as, rfl, fun _ => rfl⟩

theorem takes_of_law {P : Pattern} {n : Nat} {as : List Atom} (has : as ≠ []) (hps : P.pieces = anchored n as)
    (hlaw : ∀ t : Text, t.len < 2 ^ 31 → Law P t) {w : List UInt8} (hw : w.length = as.length)
    (hread : (Starts P.steps w).Nonempty) : ∀ a ∈ as, ∀ c, a.takes c = a.denotes c := by
  have hshort : as.length ≤ 64 := by
    rw [← atomCount_anchored n as, ← hps]
    exact (atomCount_le _).trans P.fits
  have hsteps : P.steps = lettersFrom n (denoteSets as) := by
    rw [Pattern.steps, hps, steps_anchored]
  have htake : (takeSets as).length = as.length := List.length_map _
  have hdenote : (denoteSets as).length = as.length := List.length_map _
  have hsets : denoteSets as = takeSets as := by
    refine eq_of_forall₂_iff (hdenote.trans htake.symm)
      ((nonempty_starts_lettersFrom (hw.trans hdenote.symm)).1 (hsteps ▸ hread)) fun v hv => ?_
    rw [hdenote] at hv
    have hlen : Text.len ⟨v, 0⟩ < 2 ^ 31 := by
      simp only [Text.len]
      omega
    rw [← nonempty_starts_lettersFrom (hv.trans hdenote.symm), ← nonempty_starts_lettersFrom (hv.trans htake.symm),
      ← hsteps, ← (hlaw ⟨v, 0⟩ hlen).match_iff, rgxMatch_iff]
    constructor
    · rintro ⟨i, _, hi⟩
      exact ⟨i, (tries_anchored ⟨v, 0⟩ n has).1 (hps ▸ hi)⟩
    · rintro ⟨i, hi⟩
      exact ⟨i, le_length_of_mem_starts hi, hps ▸ (tries_anchored ⟨v, 0⟩ n has).2 hi⟩
  intro a ha c
  have hset := List.map_inj_left.1 hsets a ha
  exact Bool.eq_iff_iff.2 (Set.ext_iff.1 hset c).symm

theorem plain_of_law {P : Pattern} (hsat : Satisfiable P.steps) (hlaw : ∀ t : Text, t.len < 2 ^ 31 → Law P t) :
    Plain P.pieces := by
  obtain ⟨w, hw, hread⟩ := hsat.short (short_steps P)
  have hle := demand_le P.pieces
  have hcount := (atomCount_le P.pieces).trans P.fits
  have hstart : (Starts P.steps w).Nonempty := ⟨0, [], w, [], by simp, rfl, hread⟩
  have hlen : Text.len ⟨w, 0⟩ < 2 ^ 31 := by
    simp only [Text.len, hw, Pattern.steps]
    omega
  obtain ⟨i, hi, htry⟩ := (rgxMatch_iff P ⟨w, 0⟩).1 ((hlaw _ hlen).match_iff.2 hstart)
  simp only [Pattern.steps] at hw hread
  cases hps : P.pieces with
  | nil =>
    rw [hps] at htry
    cases htry
  | cons p ps =>
    rw [hps] at htry hw hread hle
    by_cases hp : p = .anchorStart
    · subst hp
      simp only [tries, Bool.and_eq_true, decide_eq_true_eq] at htry
      obtain ⟨rfl, hhit⟩ := htry
      have hfit := le_of_hits (Nat.zero_le _) hhit
      have hdemand : demand (ps.map Piece.step) = atomCount ps := by
        simp only [Text.len, hw, List.map_cons, Piece.step, demand, atomCount] at hfit hle
        omega
      have hwlen : w.length = atomCount ps := hw.trans hdemand
      obtain ⟨n, as, rfl, _⟩ := anchored_of_hits hhit (by rw [Nat.zero_add]; exact hwlen.symm) hdemand hread.2
      rw [atomCount_anchored] at hwlen
      cases as with
      | nil =>
        obtain rfl : w = [] := List.eq_nil_of_length_eq_zero hwlen
        cases n with
        | zero => exact .inl rfl
        | succ n => cases hhit
      | cons a as =>
        exact .inr ⟨n + 1, a :: as, List.cons_ne_nil _ _, rfl,
          takes_of_law (n := n + 1) (List.cons_ne_nil _ _) hps hlaw hwlen hstart⟩
    · rw [tries_free hp] at htry
      have hfit := le_of_hits hi htry
      have hdemand : demand ((p :: ps).map Piece.step) = atomCount (p :: ps) := by
        simp only [Text.len, hw] at hfit
        omega
      have hwlen : w.length = atomCount (p :: ps) := hw.trans hdemand
      obtain rfl : i = 0 := by
        simp only [Text.len, hwlen] at hfit
        omega
      obtain ⟨n, as, hform, _⟩ := anchored_of_hits htry (by rw [Nat.zero_add]; exact hwlen.symm) hdemand hread
      cases n with
      | succ n => exact absurd (List.cons.inj hform).1 hp
      | zero =>
        have has : as ≠ [] := by
          rintro rfl
          cases hform
        rw [hform, atomCount_anchored] at hwlen
        exact .inr ⟨0, as, has, hform, takes_of_law has (hps.trans hform) hlaw hwlen hstart⟩

/-- The two functions keep to the language of a pattern on every text exactly when it is plain, or neither they nor the
language ever accept anything. -/
theorem law_iff (P : Pattern) : (∀ t : Text, t.len < 2 ^ 31 → Law P t) ↔
      Plain P.pieces ∨ (¬Satisfiable P.steps ∧ ¬Responds false false P.pieces) := by
  constructor
  · intro hlaw
    by_cases hsat : Satisfiable P.steps
    · exact .inl (plain_of_law hsat hlaw)
    · refine .inr ⟨hsat, fun hresp => hsat ?_⟩
      have hfits := P.fits
      cases hps : P.pieces with
      | nil => exact ⟨[], [], [], by rw [Pattern.steps, hps]; rfl⟩
      | cons p ps =>
        rw [hps] at hresp hfits
        obtain ⟨t, hlen, htry⟩ := tries_of_responds hresp
        have hcount := (length_le_nodeCount (p :: ps)).trans hfits
        rw [List.length_cons] at hcount
        have hmatch := (rgxMatch_iff P t).2 ⟨0, Nat.zero_le _, by rw [hps]; exact htry⟩
        obtain ⟨i, hi⟩ := (hlaw t (by omega)).match_iff.1 hmatch
        exact satisfiable_of_mem_starts hi
  · rintro (hplain | ⟨hsat, hresp⟩) t hlen
    · exact law_of_plain hplain hlen
    · have hnone : ∀ i, ¬tries t P.pieces i = true := fun i h => hresp (responds_of_tries h)
      exact law_of_tries hlen (fun i => ⟨fun h => absurd h (hnone i), fun h => absurd (satisfiable_of_mem_starts h) hsat⟩)
        fun i h => absurd h (hnone i)

/-- `a+` -/
def someAs : Pattern := { pieces := [.atom (.literal 0x61 rfl) [.plus]], fits := by decide }

/-- `a+` is in `a`, and the matcher does not find it. -/
theorem plus_never : ¬∀ (P : Pattern) (t : Text), t.len < 2 ^ 31 → Law P t := by
  intro h
  have hmatch : rgxMatch (rgxCompile someAs.render) ⟨[0x61], 0⟩ = false := by decide
  have hword : [0x61] ∈ pieceLanguage (.literal 0x61 rfl) [.plus] :=
    ⟨[0x61], ⟨0x61, by decide, rfl⟩, [], Language.nil_mem_kstar _, rfl⟩
  have hstart : (Starts someAs.steps [0x61]).Nonempty := ⟨0, [], [0x61], [], rfl, rfl, [0x61], [], rfl, hword, rfl⟩
  have hlaw := h someAs ⟨[0x61], 0⟩ (by decide)
  rw [hlaw.match_iff.2 hstart] at hmatch
  cases hmatch

end Chicago95.Stage2.Awk
