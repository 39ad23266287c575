/-
# Chicago95.Kernel.VfsHandles — descriptors against the nodes they point to.

An entry of `global_fd_table` holds a bare pointer to a node, and nothing counts these pointers. Two calls
free what one may still point to: `vfs_unlink`, which frees a node by its path, and a write that outgrows
the buffer of its node, which frees the old one although the other end of a pipe has it too.
-/
import Chicago95.Kernel.Descriptors
import Chicago95.Kernel.VfsTree
import Chicago95.Lib.Transition

namespace Chicago95.Kernel

open Chicago95.Lib.Transition Chicago95.Lib.Paths

/-! ## Writing and piping -/

namespace Vfs

variable {v w : Vfs}

/-- A new buffer for a node, the old one freed. -/
def regrow (v : Vfs) (n length : Nat) : Vfs :=
  let freed := match (v.nodes n).implData with
    | some b => Function.update v.freedData b true
    | none => v.freedData
  { v.set n { v.nodes n with implData := some v.nextData, length := length } with
    freedData := freed
    nextData := v.nextData + 1 }

/-- What `tmpfs_write` of `len` bytes at `off` does to the node: a longer file gets a new buffer. -/
def tmpfsWrite (v : Vfs) (n off len : Nat) (granted : Bool) : Vfs :=
  let needed := (off + len) % 2 ^ 64
  if (v.nodes n).length < needed ∧ granted = true then v.regrow n (needed % 2 ^ 32) else v

/-- `vfs_write`: the devices of `dev_ops` leave the node alone. -/
def vfsWrite (v : Vfs) (n off len : Nat) (granted : Bool) : Vfs :=
  if ((v.nodes n).type = .file ∧ (v.nodes n).implData.isSome = true) ∨ (v.nodes n).ops = .tmp then
    v.tmpfsWrite n off len granted
  else v

/-- Giving one new buffer to the two ends of a pipe. -/
def share (v : Vfs) (r w : Nat) : Vfs :=
  let u := v.set r { v.nodes r with implData := some v.nextData, length := 0 }
  let u := u.set w { u.nodes w with implData := some v.nextData, length := 4096 }
  { u with nextData := v.nextData + 1 }

/-- The nodes of `sys_pipe`: two files, both with one new buffer in place of their own. -/
def pipeNodes (v : Vfs) (gr gw : Grant) (buf : Bool) : Option (Nat × Nat) × Vfs :=
  match v.tmpfsCreateNode ['p', 'i', 'p', 'e', '_', 'r'] .file gr with
  | (r, v) =>
    match v.tmpfsCreateNode ['p', 'i', 'p', 'e', '_', 'w'] .file gw with
    | (w, v) =>
      match r, w with
      | some r, some w =>
        if buf then (some (r, w), v.share r w) else (none, v)
      | _, _ => (none, v)

/-! ## Buffers -/

/-- Who has which buffer: numbers are below the next one, and a node in a directory shares its buffer with
no other node. -/
structure Buffers (v : Vfs) : Prop where
  fresh : ∀ n b, n < v.nextNode → (v.nodes n).implData = some b → b < v.nextData
  freed : ∀ b, v.freedData b = true → b < v.nextData
  owned : ∀ d c b, v.Live d → c ∈ (v.nodes d).children → (v.nodes c).implData = some b →
    ∀ m, m < v.nextNode → m ≠ c → (v.nodes m).implData ≠ some b

/-- A node that a descriptor may point to: not freed, and a file's buffer is not freed either. -/
def Sane (v : Vfs) (n : Nat) : Prop :=
  v.freedNode n = false ∧
    ((v.nodes n).type = .file → ∀ b, (v.nodes n).implData = some b → v.freedData b = false)

theorem Linked.buffers_grown (h : v.Linked) (hb : v.Buffers) {name : Name} {type : VfsType}
    {node : VfsNode} {data : Nat} (hnode : v.NewNode name type node data) :
    (v.grown node data).Buffers ∧ (∀ n, n < v.nextNode → v.Sane n → (v.grown node data).Sane n) ∧
      (v.grown node data).Sane v.nextNode := by
  have hdata : v.nextData ≤ data ∧ ∀ b, node.implData = some b → b = v.nextData ∧ b < data := by
    rcases hnode.implData with ⟨himpl, rfl⟩ | ⟨himpl, rfl⟩
    · exact ⟨Nat.le_refl _, fun b hbuf => by rw [himpl] at hbuf; cases hbuf⟩
    · exact ⟨Nat.le_succ _, fun b hbuf => by
        obtain rfl := Option.some.inj (himpl.symm.trans hbuf)
        exact ⟨rfl, Nat.lt_succ_self _⟩⟩
  have hold : ∀ n, n < v.nextNode → (v.grown node data).nodes n = v.nodes n := fun n hn =>
    v.grown_node_of_ne node data (Nat.ne_of_lt hn)
  have hnew : (v.grown node data).nodes v.nextNode = node := v.grown_node_new node data
  have hlt : ∀ n, n < (v.grown node data).nextNode → n < v.nextNode ∨ n = v.nextNode := fun n hn => by
    have hn' : n < v.nextNode + 1 := hn
    omega
  refine ⟨⟨fun n b hn himpl => ?_, fun b hfreed => ?_, fun d c b hd hc himpl m hm hne => ?_⟩,
    fun n hn hsane => ?_, ?_, fun _ b himpl => ?_⟩
  · show b < data
    rcases hlt n hn with hn | rfl
    · rw [hold n hn] at himpl
      exact Nat.lt_of_lt_of_le (hb.fresh n b hn himpl) hdata.1
    · rw [hnew] at himpl
      exact (hdata.2 b himpl).2
  · exact Nat.lt_of_lt_of_le (hb.freed b hfreed) hdata.1
  · rcases (h.live_grown node data d).mp hd with hdlive | rfl
    · rw [hold d hdlive.2.1] at hc
      have hclt := (h.child d c hdlive hc).1.2.1
      rw [hold c hclt] at himpl
      rcases hlt m hm with hm | rfl
      · rw [hold m hm]
        exact hb.owned d c b hdlive hc himpl m hm hne
      · rw [hnew]
        intro hbuf
        have hbeq := (hdata.2 b hbuf).1
        have hblt := hb.fresh c b hclt himpl
        omega
    · rw [hnew, hnode.children] at hc
      exact absurd hc List.not_mem_nil
  · rw [Sane, hold n hn]
    exact hsane
  · exact ((h.live_grown node data v.nextNode).mpr (Or.inr rfl)).2.2
  · rw [hnew] at himpl
    show v.freedData b = false
    have hbeq := (hdata.2 b himpl).1
    by_contra hfreed
    have hblt := hb.freed b (by simpa using hfreed)
    omega

/-- A buffer in no other node: what a node must have before it is attached. -/
def OwnBuffer (v : Vfs) (c : Nat) : Prop :=
  ∀ b, (v.nodes c).implData = some b → ∀ m, m < v.nextNode → m ≠ c → (v.nodes m).implData ≠ some b

theorem Buffers.link (hb : v.Buffers) {d c : Nat} (hd : v.Live d) (hown : v.OwnBuffer c) : (v.link d c).Buffers := by
  have himpl : ∀ n, ((v.link d c).nodes n).implData = (v.nodes n).implData := fun n => by rw [link_node]
  refine ⟨fun n b hn h => hb.fresh n b hn (by rwa [himpl] at h), hb.freed,
    fun e n b he hn h m hm hne => ?_⟩
  rw [himpl] at h
  rw [himpl]
  rw [link_node] at hn
  dsimp only at hn
  split at hn
  · rcases List.mem_append.mp hn with hn | hn
    · exact hb.owned d n b hd hn h m hm hne
    · obtain rfl := List.mem_singleton.mp hn
      exact hown b h m hm hne
  · exact hb.owned e n b he hn h m hm hne

theorem sane_link (v : Vfs) (d c n : Nat) : (v.link d c).Sane n ↔ v.Sane n := by
  rw [Sane, Sane, link_node]
  exact Iff.rfl

/-- What a call does that frees nothing: links and buffers are kept, and every sane node stays sane. -/
structure Spares (v w : Vfs) : Prop where
  linked : w.Linked
  buffers : w.Buffers
  sane : ∀ n, n < v.nextNode → v.Sane n → w.Sane n
  next : v.nextNode ≤ w.nextNode

theorem Spares.refl (h : v.Linked) (hb : v.Buffers) : v.Spares v :=
  ⟨h, hb, fun _ _ hn => hn, Nat.le_refl _⟩

theorem Linked.spares_created (h : v.Linked) (hb : v.Buffers) {d : Nat} (hd : v.Live d) {name : Name}
    {type : VfsType} {g : Grant} {ok : Bool} (hw : v.Created d name type g ok w) : v.Spares w := by
  have hlinked := h.created hd hw
  cases hw with
  | refused => exact .refl h hb
  | leaked hnew =>
    obtain ⟨hbuf, hsane, _⟩ := h.buffers_grown hb hnew
    exact ⟨hlinked, hbuf, hsane, Nat.le_succ _⟩
  | attached hnew _ _ =>
    obtain ⟨hbuf, hsane, _⟩ := h.buffers_grown hb hnew
    refine ⟨hlinked, hbuf.link ((h.live_grown _ _ _).mpr (Or.inl hd)) ?_,
      fun n hn hs => (sane_link _ _ _ _).mpr (hsane n hn hs), Nat.le_succ _⟩
    intro b himpl m hm hne hmb
    rw [grown_node_new] at himpl
    have hm' : m < v.nextNode := by
      have hlt : m < v.nextNode + 1 := hm
      omega
    rw [grown_node_of_ne _ _ _ hne] at hmb
    have hblt := hb.fresh m b hm' hmb
    rcases hnew.implData with ⟨hnone, _⟩ | ⟨hsome, _⟩
    · rw [hnone] at himpl
      cases himpl
    · obtain rfl := Option.some.inj (hsome.symm.trans himpl)
      omega

theorem spares_vfsOpen (h : v.Linked) (hb : v.Buffers) (path : Name) (creat : Bool) (g : Grant) :
    v.Spares (v.vfsOpen path creat g).2 := by
  rcases v.vfsOpen_cases path creat g with ⟨n, _, ho⟩ | ho | ⟨d, ok, w, _, _, hd, hw, ho⟩
  · rw [ho]
    exact .refl h hb
  · rw [ho]
    exact .refl h hb
  · rw [ho]
    exact h.spares_created hb (h.resolve_live hd) hw

theorem spares_vfsMkdir (h : v.Linked) (hb : v.Buffers) (path : Name) (g : Grant) : v.Spares (v.vfsMkdir path g).2 := by
  rcases v.vfsMkdir_cases path g with hm | ⟨d, ok, w, hd, hw, hm⟩
  · rw [hm]
    exact .refl h hb
  · rw [hm]
    exact h.spares_created hb (h.resolve_live hd) hw

/-! ## The nodes of a pipe -/

theorem Linked.of_links (h : v.Linked) (hroot : w.root = v.root) (hnext : w.nextNode = v.nextNode)
    (hfreed : w.freedNode = v.freedNode) (hnodes : ∀ n, (w.nodes n).parent = (v.nodes n).parent ∧
      (w.nodes n).children = (v.nodes n).children) : w.Linked := by
  have hlive : ∀ n, w.Live n ↔ v.Live n := fun n => by rw [Live, Live, hnext, hfreed]
  refine ⟨?_, ?_, fun d c hd hc => ?_, fun d hd => ?_, fun n hn => ?_⟩
  · rw [hroot, hlive]
    exact h.root
  · rw [hroot, (hnodes _).1]
    exact h.rootParent
  · rw [(hnodes d).2] at hc
    rw [hlive, (hnodes c).1]
    exact h.child d c ((hlive d).mp hd) hc
  · rw [(hnodes d).2]
    exact h.nodup d ((hlive d).mp hd)
  · rw [hfreed] at hn
    rw [hnext]
    exact h.freed n hn

theorem share_node (v : Vfs) (r w n : Nat) : ((v.share r w).nodes n).parent = (v.nodes n).parent ∧
    ((v.share r w).nodes n).children = (v.nodes n).children ∧ ((v.share r w).nodes n).type = (v.nodes n).type ∧
    ((v.share r w).nodes n).implData = if n = r ∨ n = w then some v.nextData else (v.nodes n).implData := by
  unfold share set
  simp only [Function.update_apply]
  by_cases hw : n = w
  · subst hw
    by_cases hr : n = r
    · simp [hr]
    · simp [hr]
  · by_cases hr : n = r
    · subst hr
      simp [hw]
    · simp [hw, hr]

theorem Linked.spares_share (h : v.Linked) (hb : v.Buffers) {r w : Nat} (hr : v.Loose r)
    (hw : v.Loose w) : v.Spares (v.share r w) := by
  have hfree : v.freedData v.nextData = false := by
    by_contra hf
    exact absurd (hb.freed _ (by simpa using hf)) (Nat.lt_irrefl _)
  refine ⟨h.of_links rfl rfl rfl fun n => ⟨(share_node v r w n).1, (share_node v r w n).2.1⟩,
    ⟨fun n b hn himpl => ?_, fun b hfreed => Nat.lt_succ_of_lt (hb.freed b hfreed),
      fun d c b hd hc himpl m hm hne hmb => ?_⟩, fun n _ hsane => ?_, Nat.le_refl _⟩
  · obtain ⟨_, _, _, hi⟩ := share_node v r w n
    rw [hi] at himpl
    show b < v.nextData + 1
    split at himpl
    · obtain rfl := Option.some.inj himpl
      exact Nat.lt_succ_self _
    · exact Nat.lt_succ_of_lt (hb.fresh n b hn himpl)
  · obtain ⟨_, hcd, _, _⟩ := share_node v r w d
    obtain ⟨_, _, _, hic⟩ := share_node v r w c
    obtain ⟨_, _, _, him⟩ := share_node v r w m
    rw [hcd] at hc
    have hloose : ¬ (c = r ∨ c = w) := by
      rintro (rfl | rfl)
      · exact hr d hd hc
      · exact hw d hd hc
    rw [hic, if_neg hloose] at himpl
    rw [him] at hmb
    split at hmb
    · obtain rfl := Option.some.inj hmb
      exact absurd (hb.fresh c _ (h.child d c hd hc).1.2.1 himpl) (Nat.lt_irrefl _)
    · exact hb.owned d c b hd hc himpl m hm hne hmb
  · obtain ⟨_, _, htype, hi⟩ := share_node v r w n
    refine ⟨hsane.1, fun hfile b himpl => ?_⟩
    rw [hi] at himpl
    rw [htype] at hfile
    show v.freedData b = false
    split at himpl
    · obtain rfl := Option.some.inj himpl
      exact hfree
    · exact hsane.2 hfile b himpl

theorem Spares.trans {u : Vfs} (h : v.Spares w) (h' : w.Spares u) : v.Spares u :=
  ⟨h'.linked, h'.buffers, fun n hn hs => h'.sane n (Nat.lt_of_lt_of_le hn h.next) (h.sane n hn hs),
    Nat.le_trans h.next h'.next⟩

theorem Linked.loose_grown (h : v.Linked) {node : VfsNode} (hnode : node.children = []) (data : Nat)
    {c : Nat} (hc : c = v.nextNode ∨ v.Loose c) : (v.grown node data).Loose c := by
  intro d hd hmem
  rcases (h.live_grown node data d).mp hd with hlive | rfl
  · rw [grown_node_of_live hlive] at hmem
    rcases hc with rfl | hc
    · exact h.next_not_child hlive hmem
    · exact hc d hlive hmem
  · rw [grown_node_new, hnode] at hmem
    exact absurd hmem List.not_mem_nil

theorem Linked.spares_tmpfsCreateNode (h : v.Linked) (hb : v.Buffers) (name : Name) (type : VfsType) (g : Grant) :
    v.tmpfsCreateNode name type g = (none, v) ∨
    ∃ w, v.tmpfsCreateNode name type g = (some v.nextNode, w) ∧ v.Spares w ∧ w.Loose v.nextNode ∧
      (∀ c, v.Loose c → w.Loose c) ∧ v.nextNode < w.nextNode ∧ w.Sane v.nextNode := by
  rcases v.tmpfsCreateNode_cases name type g with hc | ⟨node, data, hnew, _, hc⟩
  · exact Or.inl hc
  · obtain ⟨hbuf, hsane, hself⟩ := h.buffers_grown hb hnew
    exact Or.inr ⟨_, hc, ⟨h.grown hnew.children data, hbuf, hsane, Nat.le_succ _⟩,
      h.loose_grown hnew.children data (Or.inl rfl),
      fun c hloose => h.loose_grown hnew.children data (Or.inr hloose), Nat.lt_succ_self _, hself⟩

theorem Linked.spares_pipeNodes (h : v.Linked) (hb : v.Buffers) (gr gw : Grant) (buf : Bool) :
    v.Spares (v.pipeNodes gr gw buf).2 ∧ ∀ r w, (v.pipeNodes gr gw buf).1 = some (r, w) → ∀ n, n = r ∨ n = w →
        0 < n ∧ n < (v.pipeNodes gr gw buf).2.nextNode ∧ (v.pipeNodes gr gw buf).2.Sane n := by
  unfold pipeNodes
  rcases h.spares_tmpfsCreateNode hb ['p', 'i', 'p', 'e', '_', 'r'] .file gr with
    hr | ⟨v₁, hr, hs₁, hloose₁, hkeep₁, hlt₁, hsane₁⟩
  · rw [hr]
    rcases h.spares_tmpfsCreateNode hb ['p', 'i', 'p', 'e', '_', 'w'] .file gw with
      hw | ⟨v₂, hw, hs₂, _⟩
    · simp only [hw]
      exact ⟨.refl h hb, fun r w hsome => nomatch hsome⟩
    · simp only [hw]
      exact ⟨hs₂, fun r w hsome => nomatch hsome⟩
  · rw [hr]
    rcases hs₁.linked.spares_tmpfsCreateNode hs₁.buffers ['p', 'i', 'p', 'e', '_', 'w'] .file gw with
      hw | ⟨v₂, hw, hs₂, hloose₂, hkeep₂, hlt₂, hsane₂⟩
    · simp only [hw]
      exact ⟨hs₁, fun r w hsome => nomatch hsome⟩
    · simp only [hw]
      cases buf with
      | false => exact ⟨hs₁.trans hs₂, fun r w hsome => nomatch hsome⟩
      | true =>
        have hshare := hs₂.linked.spares_share hs₂.buffers (hkeep₂ _ hloose₁) hloose₂
        have hpos := h.next_pos
        simp only [if_true]
        refine ⟨(hs₁.trans hs₂).trans hshare, fun r w hsome n hn => ?_⟩
        obtain ⟨rfl, rfl⟩ := Prod.mk.inj (Option.some.inj hsome)
        have hnext : (v₂.share v.nextNode v₁.nextNode).nextNode = v₂.nextNode := rfl
        rw [hnext]
        rcases hn with rfl | rfl
        · exact ⟨hpos, by omega, hshare.sane _ (by omega) (hs₂.sane _ hlt₁ hsane₁)⟩
        · exact ⟨by omega, hlt₂, hshare.sane _ hlt₂ hsane₂⟩

/-! ## Freeing -/

theorem freeNode_freedData (v : Vfs) (c b : Nat) : (v.freeNode c).freedData b = true ↔
    v.freedData b = true ∨ ((v.nodes c).type = .file ∧ (v.nodes c).implData = some b) := by
  unfold freeNode
  split
  · next b' htype himpl =>
      simp only [htype, himpl, Function.update_apply, Option.some.injEq, true_and]
      by_cases hb : b = b'
      · simp [hb]
      · simp [hb, Ne.symm hb]
  · next hno =>
      constructor
      · exact Or.inl
      · rintro (hb | ⟨htype, himpl⟩)
        · exact hb
        · exact (hno b htype himpl).elim

theorem freeNode_nextData (v : Vfs) (c : Nat) : (v.freeNode c).nextData = v.nextData := by
  unfold freeNode
  split <;> rfl

theorem Linked.buffers_removeChild (h : v.Linked) (hb : v.Buffers) {d : Nat} {name : Name} {c : Nat} (hd : v.Live d)
    (hf : ((v.nodes d).children.find? fun m => decide ((v.nodes m).name = name)) = some c) :
    (v.removeChild d name c).Buffers ∧ ¬ (v.removeChild d name c).Sane c ∧
      ∀ n, n < v.nextNode → n ≠ c → v.Sane n → (v.removeChild d name c).Sane n := by
  have hmem : c ∈ (v.nodes d).children := List.mem_of_find?_eq_some hf
  obtain ⟨hclive, _⟩ := h.child d c hd hmem
  have himpl : ∀ n, ((v.removeChild d name c).nodes n).implData = (v.nodes n).implData := fun n => by
    rw [removeChild_node]
  have htype : ∀ n, ((v.removeChild d name c).nodes n).type = (v.nodes n).type := fun n => by
    rw [removeChild_node]
  have hnext : (v.removeChild d name c).nextNode = v.nextNode := freeNode_nextNode v c
  have hdata : (v.removeChild d name c).nextData = v.nextData := freeNode_nextData v c
  have hfreed : (v.removeChild d name c).freedNode = Function.update v.freedNode c true :=
    freeNode_freedNode v c
  have hfreedData : ∀ b, (v.removeChild d name c).freedData b = true ↔
      v.freedData b = true ∨ ((v.nodes c).type = .file ∧ (v.nodes c).implData = some b) :=
    v.freeNode_freedData c
  refine ⟨⟨fun n b hn hi => ?_, fun b hbf => ?_, fun e n b he hn hi m hm hne => ?_⟩, fun hs => ?_,
    fun n hn hne hs => ⟨?_, fun hfile b hi => ?_⟩⟩
  · rw [himpl] at hi
    rw [hnext] at hn
    rw [hdata]
    exact hb.fresh n b hn hi
  · rw [hdata]
    rcases (hfreedData b).mp hbf with hbf | ⟨_, hi⟩
    · exact hb.freed b hbf
    · exact hb.fresh c b hclive.2.1 hi
  · rw [himpl] at hi ⊢
    rw [hnext] at hm
    obtain ⟨he, _⟩ := (live_removeChild v d name c e).mp he
    have hn' : n ∈ (v.nodes e).children := by
      rw [removeChild_node] at hn
      dsimp only at hn
      split at hn
      · next heq => exact heq ▸ List.mem_of_mem_eraseP hn
      · exact hn
    exact hb.owned e n b he hn' hi m hm hne
  · have hself := hs.1
    rw [hfreed, Function.update_self] at hself
    cases hself
  · rw [hfreed, Function.update_of_ne hne]
    exact hs.1
  · rw [himpl] at hi
    rw [htype] at hfile
    have hold := hs.2 hfile b hi
    by_contra hbf
    rcases (hfreedData b).mp (by simpa using hbf) with hbf | ⟨_, hci⟩
    · rw [hold] at hbf
      cases hbf
    · exact hb.owned d c b hd hmem hci n hn hne hi

/-! ## Writing -/

/-- The write gives its node a new buffer. -/
def Grows (v : Vfs) (n off len : Nat) (granted : Bool) : Prop :=
  (((v.nodes n).type = .file ∧ (v.nodes n).implData.isSome = true) ∨ (v.nodes n).ops = .tmp) ∧
    (v.nodes n).length < (off + len) % 2 ^ 64 ∧ granted = true

instance (v : Vfs) (n off len : Nat) (granted : Bool) : Decidable (v.Grows n off len granted) :=
  inferInstanceAs (Decidable (_ ∧ _))

theorem vfsWrite_eq (v : Vfs) (n off len : Nat) (granted : Bool) : v.vfsWrite n off len granted =
    if v.Grows n off len granted then v.regrow n ((off + len) % 2 ^ 64 % 2 ^ 32) else v := by
  unfold vfsWrite tmpfsWrite Grows
  by_cases htmp : ((v.nodes n).type = .file ∧ (v.nodes n).implData.isSome = true) ∨
      (v.nodes n).ops = .tmp
  · simp only [htmp, if_true, true_and]
  · simp only [htmp, if_false, false_and]

theorem regrow_node (v : Vfs) (n length m : Nat) :
    (m ≠ n → (v.regrow n length).nodes m = v.nodes m) ∧
      (v.regrow n length).nodes n =
        { v.nodes n with implData := some v.nextData, length := length } :=
  ⟨fun hm => Function.update_of_ne hm .., Function.update_self ..⟩

theorem regrow_freedData (v : Vfs) (n length b : Nat) : (v.regrow n length).freedData b = true ↔
    v.freedData b = true ∨ (v.nodes n).implData = some b := by
  unfold regrow
  cases himpl : (v.nodes n).implData with
  | none => simp
  | some b' =>
    simp only [Function.update_apply, Option.some.injEq]
    by_cases hb : b = b'
    · simp [hb]
    · simp [hb, Ne.symm hb]

theorem Linked.buffers_regrow (h : v.Linked) (hb : v.Buffers) {n : Nat} (hn : n < v.nextNode) (length : Nat) :
    (v.regrow n length).Linked ∧ (v.regrow n length).Buffers ∧ ∀ m, v.Sane m → ((v.regrow n length).Sane m ↔
        (m ≠ n → (v.nodes m).type = .file → ∀ b, (v.nodes n).implData = some b → (v.nodes m).implData ≠ some b)) := by
  have hother := fun m => (v.regrow_node n length m).1
  have hself := (v.regrow_node n length n).2
  have himpl : ∀ m b, ((v.regrow n length).nodes m).implData = some b →
      (m = n ∧ b = v.nextData) ∨ (m ≠ n ∧ (v.nodes m).implData = some b) := by
    intro m b hi
    by_cases hm : m = n
    · subst hm
      rw [hself] at hi
      exact Or.inl ⟨rfl, (Option.some.inj hi).symm⟩
    · rw [hother m hm] at hi
      exact Or.inr ⟨hm, hi⟩
  have hlinks : ∀ m, ((v.regrow n length).nodes m).parent = (v.nodes m).parent ∧
      ((v.regrow n length).nodes m).children = (v.nodes m).children ∧
      ((v.regrow n length).nodes m).type = (v.nodes m).type := fun m => by
    by_cases hm : m = n
    · subst hm
      rw [hself]
      exact ⟨rfl, rfl, rfl⟩
    · rw [hother m hm]
      exact ⟨rfl, rfl, rfl⟩
  have hlinked : (v.regrow n length).Linked :=
    h.of_links rfl rfl rfl fun m => ⟨(hlinks m).1, (hlinks m).2.1⟩
  refine ⟨hlinked, ⟨fun m b hm hi => ?_, fun b hbf => ?_, fun d c b hd hc hi m hm hne hmb => ?_⟩,
    fun m hs => ⟨fun hsane hne hfile b hi hmb => ?_, fun hall => ⟨hs.1, fun hfile b hi => ?_⟩⟩⟩
  · show b < v.nextData + 1
    rcases himpl m b hi with ⟨_, rfl⟩ | ⟨_, hi⟩
    · exact Nat.lt_succ_self _
    · exact Nat.lt_succ_of_lt (hb.fresh m b hm hi)
  · show b < v.nextData + 1
    rcases (v.regrow_freedData n length b).mp hbf with hbf | hi
    · exact Nat.lt_succ_of_lt (hb.freed b hbf)
    · exact Nat.lt_succ_of_lt (hb.fresh n b hn hi)
  · -- the new buffer is one that no node had
    rw [(hlinks d).2.1] at hc
    rcases himpl c b hi with ⟨rfl, rfl⟩ | ⟨_, hci⟩
    · rcases himpl m _ hmb with ⟨hmn, _⟩ | ⟨_, hmb'⟩
      · exact hne hmn
      · exact absurd (hb.fresh m _ hm hmb') (Nat.lt_irrefl _)
    · rcases himpl m b hmb with ⟨rfl, rfl⟩ | ⟨_, hmb'⟩
      · exact absurd (hb.fresh c _ (h.child d c hd hc).1.2.1 hci) (Nat.lt_irrefl _)
      · exact hb.owned d c b hd hc hci m hm hne hmb'
  · have hold := hsane.2 ((hlinks m).2.2.trans hfile) b (by rw [hother m hne]; exact hmb)
    rw [(v.regrow_freedData n length b).mpr (Or.inr hi)] at hold
    cases hold
  · rw [(hlinks m).2.2] at hfile
    by_contra hbf
    have hbf' := (v.regrow_freedData n length b).mp (by simpa using hbf)
    rcases himpl m b hi with ⟨rfl, rfl⟩ | ⟨hne, hi⟩
    · rcases hbf' with hbf' | hi'
      · exact absurd (hb.freed _ hbf') (Nat.lt_irrefl _)
      · exact absurd (hb.fresh m _ hn hi') (Nat.lt_irrefl _)
    · rcases hbf' with hbf' | hi'
      · rw [hs.2 hfile b hi] at hbf'
        cases hbf'
      · exact hall hne hfile b hi' hi

theorem buffers_boot (dev proc tmp : Bool) : (boot dev proc tmp).Buffers := by
  have hnone : ∀ dev proc tmp : Bool, ∀ n < (boot dev proc tmp).nextNode,
      ((boot dev proc tmp).nodes n).implData = none := by decide +kernel
  have hfreed : ∀ b, (boot dev proc tmp).freedData b = false := fun b => by
    cases dev <;> cases proc <;> cases tmp <;> rfl
  refine ⟨fun n b hn hi => ?_, fun b hb => ?_, fun d c b hd hc hi => ?_⟩
  · rw [hnone dev proc tmp n hn] at hi
    cases hi
  · rw [hfreed] at hb
    cases hb
  · rw [hnone dev proc tmp c ((linked_boot dev proc tmp).child d c hd hc).1.2.1] at hi
    cases hi

end Vfs

end Chicago95.Kernel
