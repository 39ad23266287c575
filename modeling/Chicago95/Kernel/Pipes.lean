/-
# Chicago95.Kernel.Pipes — a pipe, from `sys_pipe` on.

A pipe is two files of `tmpfs` that share a buffer. Each has a length and a descriptor with an offset of its own.
-/
import Chicago95.Kernel.FdIo

namespace Chicago95.Kernel

open Chicago95.Lib.Transition

/-- The files, with `node->flags`. -/
abbrev FileState := Files × (Nat → Nat)

namespace Files

/-- The nodes of `sys_pipe` and their buffer of zeros. -/
def pipeNodes (f : Files) (gr gw : Grant) (buf : Bool) : Option (Nat × Nat) × Files :=
  match f.tmpfsCreateNode ['p', 'i', 'p', 'e', '_', 'r'] .file gr with
  | (r, f) =>
    match f.tmpfsCreateNode ['p', 'i', 'p', 'e', '_', 'w'] .file gw with
    | (w, f) =>
      match r, w with
      | some r, some w =>
        if buf = true then
          (some (r, w),
            { vfs := f.vfs.share r w
              size := Function.update f.size f.vfs.nextData 4096
              bytes := Function.update f.bytes f.vfs.nextData fun _ => 0 })
        else (none, f)
      | _, _ => (none, f)

theorem vfsWrite_node_of_ne {f g : Files} {n off m : Nat} {data : List UInt8} {granted : Bool} {r : Option Nat}
    (h : f.vfsWrite n off data granted = some (r, g)) (hne : m ≠ n) : g.vfs.nodes m = f.vfs.nodes m := by
  have hstore : ∀ {f' g' : Files} {b o : Nat} {data : List UInt8}, f'.store b o data = some g' → g'.vfs = f'.vfs := by
    intro f' g' b o data hst
    unfold store at hst
    split at hst
    · obtain rfl := Option.some.inj hst
      rfl
    · cases hst
  have hcopy : ∀ {f' g' : Files} {o : Nat} {data : List UInt8}, f'.memcpyTo n o data = some g' → g'.vfs = f'.vfs := by
    intro f' g' o data hcp
    unfold memcpyTo at hcp
    split at hcp
    · split at hcp
      · obtain rfl := Option.some.inj hcp
        rfl
      · cases hcp
    · exact hstore hcp
  have htmpfs : ∀ {r' : Option Nat}, f.tmpfsWrite n off data granted = some (r', g) → g.vfs.nodes m = f.vfs.nodes m := by
    intro r' hw
    unfold tmpfsWrite at hw
    dsimp only at hw
    split at hw
    · split at hw
      · obtain ⟨f₁, hre, hw⟩ := Option.bind_eq_some_iff.mp hw
        obtain ⟨f₂, hcp, heq⟩ := Option.map_eq_some_iff.mp hw
        obtain rfl := (Prod.mk.inj heq).2
        obtain ⟨old, -, rfl⟩ := Option.map_eq_some_iff.mp hre
        unfold setLength Vfs.set
        dsimp only
        rw [Function.update_of_ne hne, hcopy hcp]
        unfold Vfs.regrow Vfs.set
        exact Function.update_of_ne hne _ _
      · obtain rfl := (Prod.mk.inj (Option.some.inj hw)).2
        rfl
    · obtain ⟨f₁, hcp, heq⟩ := Option.map_eq_some_iff.mp hw
      obtain rfl := (Prod.mk.inj heq).2
      rw [hcopy hcp]
  unfold vfsWrite at h
  split at h
  · exact htmpfs h
  · split at h
    · obtain rfl := (Prod.mk.inj (Option.some.inj h)).2
      rfl
    · exact htmpfs h

theorem pipeNodes_eq {f g : Files} {gr gw : Grant} {buf : Bool} {r w : Nat}
    (h : f.pipeNodes gr gw buf = (some (r, w), g)) :
    r ≠ w ∧ (g.vfs.nodes r).type = .file ∧ (g.vfs.nodes r).implData.isSome = true ∧ (g.vfs.nodes r).length = 0 := by
  unfold pipeNodes tmpfsCreateNode at h
  rcases f.vfs.tmpfsCreateNode_cases ['p', 'i', 'p', 'e', '_', 'r'] .file gr with
    hr | ⟨node, data, hnew, -, hr⟩
  · simp only [hr] at h
    cases (Prod.mk.inj h).1
  · simp only [hr] at h
    rcases (f.vfs.grown node data).tmpfsCreateNode_cases ['p', 'i', 'p', 'e', '_', 'w'] .file gw with
      hw | ⟨node', data', -, -, hw⟩
    · simp only [hw] at h
      cases (Prod.mk.inj h).1
    · simp only [hw] at h
      split at h
      · obtain ⟨hrw, rfl⟩ := Prod.mk.inj h
        obtain ⟨rfl, rfl⟩ := Prod.mk.inj (Option.some.inj hrw)
        have hne : f.vfs.nextNode ≠ (f.vfs.grown node data).nextNode := Nat.ne_of_lt (Nat.lt_succ_self _)
        have hnode : ((f.vfs.grown node data).grown node' data').nodes f.vfs.nextNode = node := by
          rw [Vfs.grown_node_of_ne _ _ _ hne, Vfs.grown_node_new]
        unfold Vfs.share Vfs.set
        dsimp only
        rw [Function.update_of_ne hne, Function.update_self, hnode]
        exact ⟨hne, hnew.type, rfl, rfl⟩
      · cases (Prod.mk.inj h).1

end Files

/-! ## The calls -/

/-- `sys_pipe`: the numbers it stores at `pipefd_ptr` when it returns 0, and the state. -/
def sysPipeFiles (s : Io FileState) (pipefdPtr : Nat) (gr gw : Grant) (buf : Bool) :
    Option (Fin 16 × Fin 16) × Io FileState :=
  match s.kernel.currentProcess with
  | none => (none, s)
  | some c =>
    if syscallValidateUserPtr s.kernel pipefdPtr 8 = false then (none, s)
    else
      let made := s.fs.1.pipeNodes gr gw buf
      -- the file system numbers nodes from 0, and a new node has no flags
      let nodes := made.1.map fun (r, w) => (r + 1, w + 1)
      let flags := fun node => if s.fs.1.vfs.nextNode < node then 0 else s.fs.2 node
      let after : Io FileState := { fs := (made.2, flags), kernel := (sysPipe s.kernel pipefdPtr nodes).2 }
      if (sysPipe s.kernel pipefdPtr nodes).1 = 0 then (findTwoFreeFds (s.kernel.processes c).fdTable, after)
      else (none, after)

/-- The state, with the bytes that writes have accepted and reads have returned. -/
structure Pipe where
  io : Io FileState
  accepted : List UInt8
  returned : List UInt8

/-- A read of the one end, or a write to the other. -/
inductive PipeCall
  | read (buf len : Nat) (key : Option UInt8) (granted : Bool)
  | write (buf : Nat) (data : List UInt8) (granted : Bool)

namespace Pipe

/-- The state after a call through the numbers `r` and `w`. -/
def next (r w : Fin 16) (s : Pipe) : PipeCall → Option Pipe
  | .read buf len key granted =>
    (sysRead Files.fileSystem s.io r.val buf len key granted).map fun (_, bytes, io) =>
      { s with io := io, returned := s.returned ++ bytes }
  | .write buf data granted =>
    (sysWrite Files.fileSystem s.io w.val buf data granted).map fun (n, io) =>
      { s with io := io, accepted := s.accepted ++ data.take n.toNat }

/-- One call. -/
def Step (r w : Fin 16) (s : Pipe) (call : PipeCall) (t : Pipe) : Prop := s.next r w call = some t

/-- What is owed: the bytes returned begin the bytes accepted, and are all of them when a read returns 0. -/
def Right (r : Fin 16) (s : Pipe) (call : PipeCall) (t : Pipe) : Prop :=
  t.returned <+: t.accepted ∧
    match call with
    | .read buf len key granted =>
      ∀ bytes io, sysRead Files.fileSystem s.io r.val buf len key granted = some (0, bytes, io) →
        t.returned = t.accepted
    | .write .. => True

/-- The condition on a read: through a number from 3 on, that no byte has been accepted. -/
def Guard (r : Fin 16) (s : Pipe) : PipeCall → Prop
  | .read buf len key _ =>
    syscallValidateUserPtr s.io.kernel buf len = true →
      (3 ≤ r.val → s.accepted = []) ∧
        (r.val = 0 → match key with
          | none => s.returned = s.accepted
          | some ch => s.returned ++ [ch] <+: s.accepted)
  | .write .. => True

/-- The pipe as `sys_pipe` leaves it. -/
def start (io : Io FileState) : Pipe := { io := io, accepted := [], returned := [] }

/-! ## The invariant -/

/-- The process `c` has the two numbers, of two entries in use with the nodes `nr` and `nw`, and the read end is empty. -/
structure Open (r w : Fin 16) (io : Io FileState) (c : Slot) (i j : Fin 1024) (nr nw : Nat) : Prop where
  current : io.kernel.currentProcess = some c
  lt : r < w
  ne : i ≠ j ∧ nr ≠ nw
  readEnd : io.kernel.Names c r i ∧ (io.kernel.globalFdTable i).node = nr + 1
  writeEnd : io.kernel.Names c w j ∧ (io.kernel.globalFdTable j).node = nw + 1
  empty : (io.fs.1.vfs.nodes nr).type = .file ∧ (io.fs.1.vfs.nodes nr).implData.isSome = true ∧
    (io.fs.1.vfs.nodes nr).length = 0

/-- What holds while everything is right: besides, that a number from 3 on has returned nothing. -/
structure Inv (r w : Fin 16) (s : Pipe) : Prop where
  isOpen : ∃ c i j nr nw, Open r w s.io c i j nr nw
  order : s.returned <+: s.accepted
  silent : 3 ≤ r.val → s.returned = []

variable {r w : Fin 16} {io : Io FileState} {c : Slot} {i j : Fin 1024} {nr nw : Nat}

theorem names_setOffset {k : KState} {e : Fin 16} {a : Fin 1024} (x : Nat) (b : Fin 1024) (h : k.Names c e a) :
    (k.setOffset b x).Names c e a ∧ ((k.setOffset b x).globalFdTable a).node = (k.globalFdTable a).node := by
  unfold KState.Names KState.setOffset
  rw [KState.setGlobalFds_globalFdTable, KState.setGlobalFds_processes]
  by_cases hab : a = b
  · subst hab
    rw [Function.update_self]
    exact ⟨h, rfl⟩
  · rw [Function.update_of_ne hab]
    exact ⟨h, rfl⟩

theorem Open.setOffset (h : Open r w io c i j nr nw) {k : KState} {fs : FileState}
    (hk : k = io.kernel ∨ ∃ a x, k = io.kernel.setOffset a x) (hfs : fs.1.vfs.nodes nr = io.fs.1.vfs.nodes nr) :
    Open r w { fs := fs, kernel := k } c i j nr nw := by
  have hempty := h.empty
  rw [← hfs] at hempty
  rcases hk with rfl | ⟨a, x, rfl⟩
  · exact ⟨h.current, h.lt, h.ne, h.readEnd, h.writeEnd, hempty⟩
  · obtain ⟨hr, hrnode⟩ := names_setOffset x a h.readEnd.1
    obtain ⟨hw, hwnode⟩ := names_setOffset x a h.writeEnd.1
    exact ⟨h.current, h.lt, h.ne, ⟨hr, hrnode.trans h.readEnd.2⟩, ⟨hw, hwnode.trans h.writeEnd.2⟩, hempty⟩

theorem Open.read_nothing (h : Open r w io c i j nr nw) (off len : Nat) (granted : Bool) :
    Files.fileSystem.read io.fs (nr + 1) off len granted = some (0, [], io.fs) := by
  obtain ⟨htype, himpl, hlen⟩ := h.empty
  have hread : io.fs.1.vfsRead nr off len = some [] := by
    unfold Files.vfsRead
    rw [if_pos ⟨htype, himpl⟩, Files.tmpfsRead]
    cases hb : (io.fs.1.vfs.nodes nr).implData with
    | none => rfl
    | some b =>
      dsimp only
      rw [if_pos (by omega)]
  show (io.fs.1.vfsRead nr off len).map _ = _
  rw [hread]
  rfl

theorem Open.sysRead_eq (h : Open r w io c i j nr nw) (buf len : Nat) (key : Option UInt8) (granted : Bool) :
    sysRead Files.fileSystem io r.val buf len key granted =
      if syscallValidateUserPtr io.kernel buf len = false then some (-1, [], io)
      else if r.val = 0 then
        match key with
        | none => some (0, [], io)
        | some ch => some (1, [ch], io)
      else if r.val < 3 then some (-1, [], io)
      else some (0, [], io) := by
  cases hbuf : syscallValidateUserPtr io.kernel buf len with
  | false =>
    rw [if_pos rfl]
    unfold sysRead
    simp only [h.current]
    rw [if_pos hbuf]
  | true =>
    rw [if_neg (by decide)]
    by_cases h3 : 3 ≤ r.val
    · rw [if_neg (by omega), if_neg (by omega)]
      rw [sysRead_of_names h.current h3 h.readEnd.1 (by rw [h.readEnd.2]; omega) hbuf, h.readEnd.2,
        h.read_nothing]
      rfl
    · unfold sysRead
      simp only [h.current]
      rw [if_neg (by rw [hbuf]; decide)]
      by_cases hzero : r.val = 0
      · refine (if_pos hzero).trans (Eq.trans ?_ (if_pos hzero).symm)
        cases key <;> rfl
      · rw [if_neg hzero, if_neg hzero, if_pos (by omega), if_pos (by omega)]

theorem Open.sysWrite (h : Open r w io c i j nr nw) {buf : Nat} {data : List UInt8} {granted : Bool} {n : Int}
    {io' : Io FileState} (hwrite : sysWrite Files.fileSystem io w.val buf data granted = some (n, io')) :
    Open r w io' c i j nr nw := by
  have hpos : 0 < w.val := Nat.lt_of_le_of_lt (Nat.zero_le _) h.lt
  cases hbuf : syscallValidateUserPtr io.kernel buf data.length with
  | false =>
    unfold Kernel.sysWrite at hwrite
    simp only [h.current] at hwrite
    rw [if_pos hbuf] at hwrite
    obtain rfl := (Prod.mk.inj (Option.some.inj hwrite)).2
    exact h
  | true =>
    by_cases h3 : 3 ≤ w.val
    · rw [sysWrite_of_names h.current h3 h.writeEnd.1 (by rw [h.writeEnd.2]; omega) hbuf granted rfl,
        h.writeEnd.2] at hwrite
      obtain ⟨⟨m, fs⟩, hfs, heq⟩ := Option.map_eq_some_iff.mp hwrite
      obtain ⟨⟨res, f⟩, hvfs, hfeq⟩ := Option.map_eq_some_iff.mp hfs
      obtain ⟨-, rfl⟩ := Prod.mk.inj heq
      obtain ⟨-, rfl⟩ := Prod.mk.inj hfeq
      refine h.setOffset ?_ (Files.vfsWrite_node_of_ne hvfs h.ne.2)
      split
      · exact Or.inr ⟨_, _, rfl⟩
      · exact Or.inl rfl
    · unfold Kernel.sysWrite at hwrite
      simp only [h.current] at hwrite
      rw [if_neg (by rw [hbuf]; decide), if_neg (by omega), if_pos (by omega)] at hwrite
      obtain rfl := (Prod.mk.inj (Option.some.inj hwrite)).2
      exact h

/-! ## One call -/

variable {s t : Pipe}

theorem Inv.write (h : Inv r w s) {buf : Nat} {data : List UInt8} {granted : Bool}
    (hst : Step r w s (.write buf data granted) t) :
    t.returned = s.returned ∧ t.returned <+: t.accepted ∧ Inv r w t := by
  obtain ⟨⟨n, io⟩, hwrite, rfl⟩ := Option.map_eq_some_iff.mp hst
  obtain ⟨c, i, j, nr, nw, hopen⟩ := h.isOpen
  have horder : s.returned <+: s.accepted ++ data.take n.toNat := h.order.trans (List.prefix_append _ _)
  exact ⟨rfl, horder, ⟨c, i, j, nr, nw, hopen.sysWrite hwrite⟩, horder, h.silent⟩

/-- What a read comes to: by its number, whether the buffer is valid, and the key. -/
inductive Outcome (r : Fin 16) : Bool → Option UInt8 → Int → List UInt8 → Prop
  | invalid (key : Option UInt8) : Outcome r false key (-1) []
  | noKey : r.val = 0 → Outcome r true none 0 []
  | typed (ch : UInt8) : r.val = 0 → Outcome r true (some ch) 1 [ch]
  | screen (key : Option UInt8) : r.val = 1 ∨ r.val = 2 → Outcome r true key (-1) []
  | nothing (key : Option UInt8) : 3 ≤ r.val → Outcome r true key 0 []

theorem Open.outcome (h : Open r w io c i j nr nw) (buf len : Nat) (key : Option UInt8) (granted : Bool) :
    ∃ n bytes, sysRead Files.fileSystem io r.val buf len key granted = some (n, bytes, io) ∧
      Outcome r (syscallValidateUserPtr io.kernel buf len) key n bytes := by
  rw [h.sysRead_eq]
  cases syscallValidateUserPtr io.kernel buf len with
  | false => exact ⟨_, _, rfl, .invalid key⟩
  | true =>
    rw [if_neg (by decide)]
    split
    · rename_i hzero
      cases key with
      | none => exact ⟨_, _, rfl, .noKey hzero⟩
      | some ch => exact ⟨_, _, rfl, .typed ch hzero⟩
    · split
      · exact ⟨_, _, rfl, .screen key (by omega)⟩
      · exact ⟨_, _, rfl, .nothing key (by omega)⟩

theorem Inv.read (h : Inv r w s) {buf len : Nat} {key : Option UInt8} {granted : Bool}
    (hst : Step r w s (.read buf len key granted) t) :
    ∃ n bytes, sysRead Files.fileSystem s.io r.val buf len key granted = some (n, bytes, s.io) ∧
      t = { s with returned := s.returned ++ bytes } ∧
      Outcome r (syscallValidateUserPtr s.io.kernel buf len) key n bytes := by
  obtain ⟨c, i, j, nr, nw, hopen⟩ := h.isOpen
  obtain ⟨n, bytes, hread, hout⟩ := hopen.outcome buf len key granted
  refine ⟨n, bytes, hread, ?_, hout⟩
  unfold Step next at hst
  dsimp only at hst
  rw [hread] at hst
  exact (Option.some.inj hst).symm

theorem Inv.right_iff (h : Inv r w s) {call : PipeCall} (hst : Step r w s call t) :
    Right r s call t ↔ Guard r s call := by
  cases call with
  | write buf data granted => exact iff_of_true ⟨(h.write hst).2.1, trivial⟩ trivial
  | read buf len key granted =>
    obtain ⟨n, bytes, hread, rfl, hout⟩ := h.read hst
    unfold Right Guard
    dsimp only
    rw [hread]
    generalize syscallValidateUserPtr s.io.kernel buf len = valid at hout
    -- returning 0 asks for all bytes, returning anything else for a prefix only
    cases hout with
    | invalid key =>
      rw [List.append_nil]
      exact iff_of_true ⟨h.order, fun _ _ heq => nomatch heq⟩ nofun
    | screen key hr =>
      rw [List.append_nil]
      refine iff_of_true ⟨h.order, fun _ _ heq => nomatch heq⟩ fun _ => ⟨fun _ => by omega, fun _ => by omega⟩
    | noKey hr =>
      rw [List.append_nil]
      constructor
      · exact fun hright _ => ⟨fun _ => by omega, fun _ => hright.2 _ _ rfl⟩
      · exact fun hguard => ⟨h.order, fun _ _ _ => (hguard rfl).2 hr⟩
    | typed ch hr =>
      constructor
      · exact fun hright _ => ⟨fun _ => by omega, fun _ => hright.1⟩
      · exact fun hguard => ⟨(hguard rfl).2 hr, fun _ _ heq => nomatch heq⟩
    | nothing key hr =>
      rw [List.append_nil, h.silent hr]
      constructor
      · exact fun hright _ => ⟨fun _ => (hright.2 _ _ rfl).symm, fun _ => by omega⟩
      · exact fun hguard => ⟨List.nil_prefix, fun _ _ _ => ((hguard rfl).1 hr).symm⟩

theorem Inv.step (h : Inv r w s) {call : PipeCall} (hst : Step r w s call t) (hright : Right r s call t) :
    Inv r w t := by
  cases call with
  | write buf data granted => exact (h.write hst).2.2
  | read buf len key granted =>
    obtain ⟨n, bytes, -, rfl, hout⟩ := h.read hst
    refine ⟨h.isOpen, hright.1, fun hr => ?_⟩
    have hbytes : bytes = [] := by
      generalize syscallValidateUserPtr s.io.kernel buf len = valid at hout
      cases hout with
      | typed ch hzero => omega
      | _ => rfl
    rw [hbytes, List.append_nil]
    exact h.silent hr

/-! ## `sys_pipe` -/

theorem sysPipe_names {k : KState} {ptr : Nat} {nodes : Option (Nat × Nat)} (h : (sysPipe k ptr nodes).1 = 0) :
    ∃ c nr nw r w i j, k.currentProcess = some c ∧ nodes = some (nr, nw) ∧
      findTwoFreeFds (k.processes c).fdTable = some (r, w) ∧ r < w ∧ i ≠ j ∧
      (sysPipe k ptr nodes).2.currentProcess = some c ∧
      (sysPipe k ptr nodes).2.Names c r i ∧ ((sysPipe k ptr nodes).2.globalFdTable i).node = nr ∧
      (sysPipe k ptr nodes).2.Names c w j ∧ ((sysPipe k ptr nodes).2.globalFdTable j).node = nw := by
  unfold sysPipe at h ⊢
  split at h
  · cases h
  · rename_i c hc
    split at h
    · cases h
    · rename_i hptr
      split at h
      · cases h
      · rename_i nr nw
        split at h
        · cases h
        · rename_i r w hfds
          rcases vfsFdAlloc_cases k.globalFdTable nr oRdonly with ha | ⟨i, hi, ha⟩
          · rw [ha] at h
            cases h
          · rw [ha] at h
            dsimp only at h
            rcases vfsFdAlloc_cases (Function.update k.globalFdTable i (takenEntry nr oRdonly)) nw oWronly with
              hb | ⟨j, hj, hb⟩
            · rw [hb] at h
              cases h
            · have hlt := (findTwoFreeFds_eq hfds).2.2
              have hij : i ≠ j := fun heq => by
                rw [heq, Function.update_self] at hj
                cases hj
              simp only [hptr, ha, hb]
              refine ⟨c, nr, nw, r, w, i, j, hc, rfl, hfds, hlt, hij, hc, ?_⟩
              unfold KState.Names
              simp [hij, Fin.ne_of_lt hlt, takenEntry]

theorem inv_start {s : Io FileState} {ptr : Nat} {gr gw : Grant} {buf : Bool} {io : Io FileState}
    (h : sysPipeFiles s ptr gr gw buf = (some (r, w), io)) : Inv r w (start io) := by
  refine ⟨?_, List.nil_prefix, fun _ => rfl⟩
  unfold sysPipeFiles at h
  split at h
  · cases (Prod.mk.inj h).1
  · rename_i c hc
    split at h
    · cases (Prod.mk.inj h).1
    · dsimp only at h
      split at h
      · rename_i hzero
        obtain ⟨c', nr, nw, r', w', i, j, hc', hnodes, hfds, hlt, hij, hcur, hr, hrnode, hw, hwnode⟩ :=
          sysPipe_names hzero
        obtain rfl := Option.some.inj (hc.symm.trans hc')
        obtain ⟨hrw, rfl⟩ := Prod.mk.inj h
        obtain ⟨rfl, rfl⟩ := Prod.mk.inj (Option.some.inj (hfds.symm.trans hrw))
        obtain ⟨⟨a, b⟩, hmade, hab⟩ := Option.map_eq_some_iff.mp hnodes
        obtain ⟨rfl, rfl⟩ := Prod.mk.inj hab
        obtain ⟨hne, hempty⟩ := Files.pipeNodes_eq (Prod.ext hmade rfl)
        exact ⟨c, i, j, a, b, ⟨hcur, hlt, ⟨hij, hne⟩, ⟨hr, hrnode⟩, ⟨hw, hwnode⟩, hempty⟩⟩
      · cases (Prod.mk.inj h).1

/-- **A pipe over any run** of reads and writes. -/
theorem run_iff {s : Io FileState} {ptr : Nat} {gr gw : Grant} {buf : Bool} {io : Io FileState}
    (h : sysPipeFiles s ptr gr gw buf = (some (r, w), io)) {tr : List (PipeCall × Pipe)}
    (htr : Trace (Step r w) (start io) tr) : AllSteps (Right r) (start io) tr ↔ Guarded (Guard r) (start io) tr :=
  htr.allSteps_iff_guarded (J := Inv r w) (Q := Right r) (fun _ _ _ hs hst => hs.right_iff hst)
    (fun _ _ _ hs hst hright => hs.step hst hright) (inv_start h)

/-- A process that has the console's numbers taken. -/
def console : Io FileState :=
  { fs := (Files.noFiles, fun _ => 0)
    kernel :=
      { KState.bare with
        processes := fun i =>
          if i.val = 0 then { state := .running, fdTable := fun d => if d.val < 3 then 0 else -1 } else {}
        currentProcess := some firstSlot } }

/-- A pipe of that process. -/
def opened : Io FileState := (sysPipeFiles console 0x1000 plenty plenty true).2

theorem sysPipeFiles_console : sysPipeFiles console 0x1000 plenty plenty true = (some (3, 4), opened) := by
  have hfds : (sysPipeFiles console 0x1000 plenty plenty true).1 = some (3, 4) := by decide +kernel
  unfold opened
  rw [← hfds]

/-- The state after a call that returns. -/
def after (r w : Fin 16) (s : Pipe) (call : PipeCall) : Pipe := (s.next r w call).getD s

theorem step_after {call : PipeCall} (h : (s.next r w call).isSome = true) : Step r w s call (after r w s call) := by
  obtain ⟨t, ht⟩ := Option.isSome_iff_exists.mp h
  unfold Step after
  rw [ht]
  rfl

/-- Nothing is read before anything is written. -/
theorem opened_read_write : AllSteps (Right 3) (start opened)
      (traceOf (after 3 4) (start opened) [.read 0x1000 1 none true, .write 0x1000 [7] true]) :=
  (run_iff sysPipeFiles_console
    (.cons (step_after (by decide +kernel)) (.cons (step_after (by decide +kernel)) (.nil _)))).mpr
    ⟨fun _ => ⟨fun _ => rfl, fun hzero => absurd hzero (by decide)⟩, trivial, trivial⟩

/-- ⚠ A byte is written, 1 is returned, and the read after it returns 0. -/
theorem opened_write_read : sysPipeFiles console 0x1000 plenty plenty true = (some (3, 4), opened) ∧
      ¬ ∀ tr, Trace (Step 3 4) (start opened) tr → AllSteps (Right 3) (start opened) tr := by
  refine ⟨sysPipeFiles_console, fun h => ?_⟩
  have hwrite : Step 3 4 (start opened) (.write 0x1000 [7] true) (after 3 4 (start opened) (.write 0x1000 [7] true)) :=
    step_after (by decide +kernel)
  have hread : Step 3 4 (after 3 4 (start opened) (.write 0x1000 [7] true)) (.read 0x1000 1 none true)
      (after 3 4 (after 3 4 (start opened) (.write 0x1000 [7] true)) (.read 0x1000 1 none true)) :=
    step_after (by decide +kernel)
  have hright := (h _ (.cons hwrite (.cons hread (.nil _)))).2.1
  -- right would mean that nothing had been accepted
  have hinv := ((inv_start sysPipeFiles_console).write hwrite).2.2
  have haccepted := ((hinv.right_iff hread).mp hright (by decide +kernel)).1 (by decide)
  exact absurd haccepted (by decide +kernel)

end Pipe

end Chicago95.Kernel
