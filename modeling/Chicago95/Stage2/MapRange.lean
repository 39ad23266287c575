/-
# Chicago95.Stage2.MapRange — `vmm_map_pages` and `vmm_map_range`.

Both map a range a page at a time, and return at the first page that fails. What a range is to do is all or nothing
(`CallSound`): each of its pages is translated to the page that many further on, and no other, or nothing changes.
-/
import Chicago95.Stage2.MapStep

namespace Chicago95.Stage2.Vmm

/-! ## The code -/

/-- `i * PAGE_SIZE`, a product of 32 bits. -/
def pageOffset (i : Nat) : UInt64 := (UInt32.ofNat i * 4096).toUInt64

/-- The loop of `vmm_map_pages` after `i` passes: what it has to return, and the tables. -/
def mapLoop (s : Vmm) (virtual physical flags : UInt64) : Nat → Int × Vmm
  | 0 => (0, s)
  | i + 1 =>
    let r := s.mapLoop virtual physical flags i
    if r.1 ≠ 0 then r else r.2.vmmMapPage (virtual + pageOffset i) (physical + pageOffset i) flags

def vmmMapPages (s : Vmm) (virtual physical : UInt64) (count : UInt32) (flags : UInt64) : Int × Vmm :=
  s.mapLoop virtual physical flags count.toNat

/-- `count` of `vmm_map_range` -/
def rangeCount (len : UInt64) : UInt32 := ((len + 4096 - 1) / 4096).toUInt32

def vmmMapRange (s : Vmm) (vStart pStart len flags : UInt64) : Int × Vmm :=
  s.vmmMapPages vStart pStart (rangeCount len) flags

/-! ## What it is to do -/

/-- Page `k` of the range that begins at `v`. -/
def pageAt (v : UInt64) (k : Nat) : UInt64 := v + UInt64.ofNat (k * 4096)

/-- The pages that a length has, the last one in part. -/
def trueCount (len : UInt64) : Nat := (len.toNat + 4095) / 4096

/-- From `s` to `t`, the first `n` pages of the range get their translations and no other page does. -/
structure Moved (s t : Vmm) (v p : UInt64) (n : Nat) : Prop where
  mapped : ∀ k < n, t.Translates (pageAt v k) (p.toNat + k * 4096)
  others : ∀ w, (∀ k < n, pageOf w ≠ pageOf (pageAt v k)) → t.vmmGetPhysical w = s.vmmGetPhysical w

/-- **All or nothing**: with 0 the range is mapped, with an error every translation is as before. -/
structure CallSound (s : Vmm) (v p : UInt64) (n : Nat) (r : Int × Vmm) : Prop where
  mapped : r.1 = 0 → Moved s r.2 v p n
  failed : r.1 ≠ 0 → ∀ w, r.2.vmmGetPhysical w = s.vmmGetPhysical w

/-- Pass `m` meets a page that `vmm_map_page` refuses. (With an offset of 32 bits it is page `m` modulo `2 ^ 20`.) -/
def RefusedAt (s : Vmm) (v p flags : UInt64) (m : Nat) : Prop :=
  (s.mapLoop v p flags m).2.Refuses (pageAt v (m % 2 ^ 20))

/-- There are pages for tables before each pass that is made. -/
def Enough (s : Vmm) (v p flags : UInt64) (n : Nat) : Prop :=
  ∀ m < n, (∀ k < m, ¬ s.RefusedAt v p flags k) → (s.mapLoop v p flags m).2.Spare

/-- **Where the passes go right**: when one is refused, the pages before it were translated so already; any other finds
a source that agrees, and past page `2 ^ 20` the page it does not get to was translated already. -/
def Fits (s : Vmm) (v p flags : UInt64) (n : Nat) : Prop :=
  ∀ m < n, (∀ k < m, ¬ s.RefusedAt v p flags k) →
    (s.RefusedAt v p flags m → ∀ k < m, s.Translates (pageAt v k) (p.toNat + k * 4096)) ∧
    (¬ s.RefusedAt v p flags m →
      (s.mapLoop v p flags m).2.Agrees (pageAt v (m % 2 ^ 20)) (p.toNat + m % 2 ^ 20 * 4096) ∧
      (2 ^ 20 ≤ m → s.Translates (pageAt v m) (p.toNat + m * 4096)))

section

variable {s : Vmm} {place : Nat → Option (List (Fin 512))} {v p flags : UInt64} {n m : Nat}

/-! ## Offsets -/

theorem toNat_pageAt (v : UInt64) (k : Nat) : (pageAt v k).toNat = (v.toNat + k * 4096) % 2 ^ 64 := by
  unfold pageAt
  rw [UInt64.toNat_add, UInt64.toNat_ofNat', Nat.add_mod_mod]

theorem add_pageOffset (v : UInt64) (i : Nat) : v + pageOffset i = pageAt v (i % 2 ^ 20) := by
  have hoffset : (pageOffset i).toNat = i % 2 ^ 20 * 4096 := by
    unfold pageOffset
    rw [UInt32.toNat_toUInt64, UInt32.toNat_mul, UInt32.toNat_ofNat']
    show i % 2 ^ 32 * 4096 % 2 ^ 32 = _
    omega
  rw [← UInt64.toNat_inj, toNat_pageAt, UInt64.toNat_add, hoffset]

theorem pageOf_pageAt_inj {j k : Nat} (hj : j < 2 ^ 36) (hk : k < 2 ^ 36) :
    pageOf (pageAt v j) = pageOf (pageAt v k) ↔ j = k := by
  unfold pageOf pageSize
  rw [toNat_pageAt, toNat_pageAt]
  omega

/-! ## One pass -/

theorem ready_pass (h : Ready s place) (hspare : s.Spare) (v p flags : UInt64) :
    ∃ place', Ready (s.vmmMapPage v p flags).2 place' := by
  rcases mapPage_cases p flags h hspare with ⟨-, -, hsame⟩ | ⟨-, hret⟩
  · rw [hsame]
    exact ⟨place, h⟩
  · obtain ⟨_, _, _, _, _, _, _, _, place₃, hmade, heq⟩ := made_of_map h hret
    rw [heq]
    exact ⟨place₃, hmade.third.ready.setEntry_leaf hmade.third.place_self _⟩

theorem mapLoop_succ (h : (s.mapLoop v p flags m).1 = 0) : s.mapLoop v p flags (m + 1) =
      (s.mapLoop v p flags m).2.vmmMapPage (pageAt v (m % 2 ^ 20)) (pageAt p (m % 2 ^ 20)) flags := by
  rw [mapLoop]
  rw [if_neg (not_not.mpr h), add_pageOffset, add_pageOffset]

theorem mapLoop_succ_of_error (h : (s.mapLoop v p flags m).1 ≠ 0) :
    s.mapLoop v p flags (m + 1) = s.mapLoop v p flags m := by
  rw [mapLoop]
  rw [if_pos h]

theorem mapLoop_ready (h : Ready s place) (henough : s.Enough v p flags n) : ∀ m ≤ n,
    ((s.mapLoop v p flags m).1 = 0 ↔ ∀ k < m, ¬ s.RefusedAt v p flags k) ∧
      ∃ place', Ready (s.mapLoop v p flags m).2 place' := by
  intro m
  induction m with
  | zero => exact fun _ => ⟨iff_of_true rfl fun k hk => absurd hk (Nat.not_lt_zero k), place, h⟩
  | succ m ih =>
    intro hm
    obtain ⟨hret, place', hready⟩ := ih (by omega)
    by_cases hzero : (s.mapLoop v p flags m).1 = 0
    · have hprev := hret.mp hzero
      have hspare := henough m (by omega) hprev
      rw [mapLoop_succ hzero]
      refine ⟨?_, ready_pass hready hspare _ _ _⟩
      have hcases := mapPage_cases (v := pageAt v (m % 2 ^ 20)) (pageAt p (m % 2 ^ 20)) flags hready hspare
      constructor
      · intro hret' k hk
        rcases Nat.lt_succ_iff_lt_or_eq.mp hk with hlt | rfl
        · exact hprev k hlt
        · intro hrefused
          rcases hcases with ⟨-, hne, -⟩ | ⟨hfree, -⟩
          · exact hne hret'
          · exact hfree hrefused
      · intro hall
        rcases hcases with ⟨hrefused, -, -⟩ | ⟨-, hret'⟩
        · exact absurd hrefused (hall m (Nat.lt_succ_self m))
        · exact hret'
    · rw [mapLoop_succ_of_error hzero]
      refine ⟨iff_of_false hzero fun hall => hzero (hret.mpr fun k hk => hall k (by omega)), place', hready⟩

theorem pass_iff (hv : v.toNat % 4096 = 0) (hp : p.toNat % 4096 = 0) (hm : m < 2 ^ 36)
    (hready : Ready (s.mapLoop v p flags m).2 place) (hspare : (s.mapLoop v p flags m).2.Spare)
    (hzero : (s.mapLoop v p flags m).1 = 0) (hmoved : Moved s (s.mapLoop v p flags m).2 v p m) :
    CallSound s v p (m + 1) (s.mapLoop v p flags (m + 1)) ↔
      (s.RefusedAt v p flags m → ∀ k < m, s.Translates (pageAt v k) (p.toNat + k * 4096)) ∧ (¬ s.RefusedAt v p flags m →
        (s.mapLoop v p flags m).2.Agrees (pageAt v (m % 2 ^ 20)) (p.toNat + m % 2 ^ 20 * 4096) ∧
        (2 ^ 20 ≤ m → s.Translates (pageAt v m) (p.toNat + m * 4096))) := by
  have hvj : (pageAt v (m % 2 ^ 20)).toNat % 4096 = 0 := by rw [toNat_pageAt]; omega
  have hpj := toNat_pageAt p (m % 2 ^ 20)
  have htarget : (p.toNat + m % 2 ^ 20 * 4096) % 4096 = 0 := by omega
  have hcases := mapPage_cases (v := pageAt v (m % 2 ^ 20)) (pageAt p (m % 2 ^ 20)) flags hready hspare
  rw [mapLoop_succ hzero]
  by_cases hrefused : s.RefusedAt v p flags m
  · -- nothing has changed since the pass before
    obtain ⟨hret, hsame⟩ : _ ∧ _ := (hcases.resolve_right fun h => h.1 hrefused).2
    simp only [hrefused, true_implies, not_true_eq_false, false_implies, and_true]
    constructor
    · intro hsound k hk w hw
      rw [← hsound.failed hret w, hsame]
      exact hmoved.mapped k hk w hw
    · intro hbefore
      refine ⟨fun h => absurd h hret, fun _ w => ?_⟩
      rw [hsame]
      by_cases hin : ∃ k < m, pageOf w = pageOf (pageAt v k)
      · obtain ⟨k, hk, hw⟩ := hin
        rw [hmoved.mapped k hk w hw, hbefore k hk w hw]
      · exact hmoved.others w fun k hk hw => hin ⟨k, hk, hw⟩
  have hret := (hcases.resolve_left fun h => hrefused h.1).2
  have hlt : m % 2 ^ 20 ≤ m := Nat.mod_le _ _
  have hlast : ∀ {w}, pageOf w = pageOf (pageAt v m) → ∀ k < m, pageOf w ≠ pageOf (pageAt v k) := by
    intro w hw k hk hwk
    have := (pageOf_pageAt_inj (v := v) hm (by omega)).mp (hw.symm.trans hwk)
    omega
  simp only [hrefused, false_implies, not_false_eq_true, true_implies, true_and]
  constructor
  · intro hsound
    have hnow := hsound.mapped hret
    have hagree : (s.mapLoop v p flags m).2.Agrees (pageAt v (m % 2 ^ 20)) (p.toNat + m % 2 ^ 20 * 4096) := by
      by_contra hnot
      refine bad_of_not_agrees hready hret hvj hpj htarget hnot (pageOf (pageAt v m))
        ⟨hnow.mapped _ (by omega), fun w hw hwm => ?_⟩
      by_cases hin : ∃ k < m, pageOf w = pageOf (pageAt v k)
      · obtain ⟨k, hk, hwk⟩ := hin
        rw [hnow.mapped k (by omega) w hwk, hmoved.mapped k hk w hwk]
      · rw [hmoved.others w fun k hk hwk => hin ⟨k, hk, hwk⟩]
        refine hnow.others w fun k hk hwk => ?_
        rcases Nat.lt_succ_iff_lt_or_eq.mp hk with hk' | rfl
        · exact hin ⟨k, hk', hwk⟩
        · exact hwm hwk
    refine ⟨hagree, fun hfar w hw => ?_⟩
    obtain ⟨-, hkept⟩ := mapped_of_agrees hready hret hvj hpj htarget hagree
    have hne : pageOf w ≠ pageOf (pageAt v (m % 2 ^ 20)) := hlast hw _ (by omega)
    rw [← hmoved.others w (hlast hw), ← hkept w hne]
    exact hnow.mapped m (by omega) w hw
  · rintro ⟨hagree, hfar⟩
    obtain ⟨hself, hkept⟩ := mapped_of_agrees hready hret hvj hpj htarget hagree
    refine ⟨fun _ => ⟨fun k hk w hw => ?_, fun w hw => ?_⟩, fun h => absurd hret h⟩
    · by_cases hkj : pageOf w = pageOf (pageAt v (m % 2 ^ 20))
      · obtain rfl : k = m % 2 ^ 20 := (pageOf_pageAt_inj (v := v) (by omega) (by omega)).mp (hw.symm.trans hkj)
        exact hself w hw
      · rw [hkept w hkj]
        rcases Nat.lt_succ_iff_lt_or_eq.mp hk with hk' | rfl
        · exact hmoved.mapped k hk' w hw
        · -- the page the offset does not get to
          have hne : k % 2 ^ 20 ≠ k := fun heq => hkj (heq.symm ▸ hw)
          rw [hmoved.others w (hlast hw)]
          exact hfar (by omega) w hw
    · rw [hkept w (hw _ (by omega))]
      exact hmoved.others w fun k hk => hw k (by omega)

/-! ## All passes -/

theorem moved_zero (s : Vmm) (v p : UInt64) : Moved s s v p 0 :=
  ⟨fun k hk => absurd hk (Nat.not_lt_zero k), fun _ _ => rfl⟩

theorem mapLoop_iff (h : Ready s place) (hv : v.toNat % 4096 = 0) (hp : p.toNat % 4096 = 0) (hn : n ≤ 2 ^ 36)
    (henough : s.Enough v p flags n) : (∀ m ≤ n, CallSound s v p m (s.mapLoop v p flags m)) ↔ s.Fits v p flags n := by
  have hloop := mapLoop_ready h henough
  constructor
  · intro hsound m hm hprev
    obtain ⟨hret, place', hready⟩ := hloop m (by omega)
    have hzero := hret.mpr hprev
    exact (pass_iff hv hp (by omega) hready (henough m hm hprev) hzero ((hsound m (by omega)).mapped hzero)).mp
      (hsound (m + 1) hm)
  · intro hfits m
    induction m with
    | zero => exact fun _ => ⟨fun _ => moved_zero s v p, fun h => absurd rfl h⟩
    | succ m ih =>
      intro hm
      have hbefore := ih (by omega)
      obtain ⟨hret, place', hready⟩ := hloop m (by omega)
      by_cases hzero : (s.mapLoop v p flags m).1 = 0
      · have hprev := hret.mp hzero
        exact (pass_iff hv hp (by omega) hready (henough m hm hprev) hzero (hbefore.mapped hzero)).mpr
          (hfits m hm hprev)
      · rw [mapLoop_succ_of_error hzero]
        exact ⟨fun h => absurd h hzero, fun h => hbefore.failed h⟩

theorem getPhysical_lt (s : Vmm) (w : UInt64) : s.vmmGetPhysical w < 2 ^ 40 := by
  have haddress : ∀ e : PageEntry, e.address < 2 ^ 40 := fun e => Nat.mod_lt _ (by decide)
  rw [vmmGetPhysical_eq]
  rcases s.source w with _ | src
  · show 0 < 2 ^ 40
    decide
  · cases src with
    | gigabyte e => exact Nat.or_lt_two_pow (haddress e) (by omega)
    | megabytes e => exact Nat.or_lt_two_pow (haddress e) (by omega)
    | page u => exact Nat.or_lt_two_pow (haddress _) (by omega)

theorem rangeCount_eq {len : UInt64} (h : len.toNat ≤ 2 ^ 44 - 4096) : (rangeCount len).toNat = trueCount len := by
  unfold rangeCount trueCount
  rw [UInt64.toNat_toUInt32, UInt64.toNat_div, UInt64.toNat_sub, UInt64.toNat_add]
  show (2 ^ 64 - 1 + (len.toNat + 4096) % 2 ^ 64) % 2 ^ 64 / 4096 % 2 ^ 32 = _
  omega

/-- **Mapping ranges**: both functions are all or nothing, for every count and length up to the one given, exactly when
the passes fit and, for a length, its number of pages has 32 bits. -/
theorem mapRange_iff (h : Ready s place) (hv : v.toNat % 4096 = 0) (hp : p.toNat % 4096 = 0) (count : UInt32)
    (len : UInt64) (hcount : s.Enough v p flags count.toNat)
    (hlen : len.toNat ≤ 2 ^ 44 - 4096 → s.Enough v p flags (trueCount len)) :
    ((∀ n ≤ count, CallSound s v p n.toNat (s.vmmMapPages v p n flags)) ↔ s.Fits v p flags count.toNat) ∧
    ((∀ l ≤ len, CallSound s v p (trueCount l) (s.vmmMapRange v p l flags)) ↔
      len.toNat ≤ 2 ^ 44 - 4096 ∧ s.Fits v p flags (trueCount len)) := by
  have hlt := count.toNat_lt
  constructor
  · rw [← mapLoop_iff h hv hp (by omega) hcount]
    constructor
    · intro hall m hm
      have hnat : (UInt32.ofNat m).toNat = m := UInt32.toNat_ofNat_of_lt' (show m < 2 ^ 32 by omega)
      have hsound := hall (UInt32.ofNat m) (by rw [UInt32.le_iff_toNat_le, hnat]; exact hm)
      unfold vmmMapPages at hsound
      rwa [hnat] at hsound
    · intro hall m hm
      exact hall m.toNat (UInt32.le_iff_toNat_le.mp hm)
  · by_cases hshort : len.toNat ≤ 2 ^ 44 - 4096
    · have htrue : trueCount len ≤ 2 ^ 36 := by unfold trueCount; omega
      rw [← mapLoop_iff h hv hp htrue (hlen hshort)]
      refine ⟨fun hall => ⟨hshort, fun m hm => ?_⟩, fun hall l hl => ?_⟩
      · -- a length of so many pages
        have hmin : min (m * 4096) len.toNat < 2 ^ 64 := by omega
        have hnat : (UInt64.ofNat (min (m * 4096) len.toNat)).toNat = min (m * 4096) len.toNat :=
          UInt64.toNat_ofNat_of_lt' hmin
        have hpages : trueCount (UInt64.ofNat (min (m * 4096) len.toNat)) = m := by
          unfold trueCount at hm ⊢
          rw [hnat]
          omega
        have hsound := hall (UInt64.ofNat (min (m * 4096) len.toNat)) (by
          rw [UInt64.le_iff_toNat_le, hnat]
          exact Nat.min_le_right _ _)
        unfold vmmMapRange vmmMapPages at hsound
        rwa [rangeCount_eq (by rw [hnat]; omega), hpages] at hsound
      · have hle := UInt64.le_iff_toNat_le.mp hl
        unfold vmmMapRange vmmMapPages
        rw [rangeCount_eq (by omega)]
        refine hall.2 _ ?_
        unfold trueCount
        omega
    · refine iff_of_false (fun hall => ?_) fun hall => hshort hall.1
      -- so long a range has 0 pages for the code, and a page past the 40 bits of the query
      have hnat : (17592186040321 : UInt64).toNat = 2 ^ 44 - 4095 := rfl
      have hsound := hall 17592186040321 (by rw [UInt64.le_iff_toNat_le, hnat]; omega)
      have hmapped := (hsound.mapped rfl).mapped (2 ^ 28) (by unfold trueCount; rw [hnat]; omega) _ rfl
      have hsmall := getPhysical_lt (s.vmmMapRange v p 17592186040321 flags).2 (pageAt v (2 ^ 28))
      omega

end

/-! ## Two ranges -/

/-- Memory with an empty PML4 and pages to be handed out. -/
def empty : Vmm := { bare PageEntry.zero with supply := [2, 3, 4, 5, 6, 7, 8] }

theorem ready_empty : Ready empty (fun t => if t = vmmPml4 then some [] else none) := by
  refine ⟨(ready_bare PageEntry.zero).placed, ?_, ?_, ?_⟩
  · decide
  · simp [empty, vmmPml4]
  · decide

theorem spare_empty : empty.Spare := ⟨2, 3, 4, [5, 6, 7, 8], rfl, by decide, by decide, by decide⟩

/-- The tables after one page is mapped. -/
def oneMapped (v : UInt64) : Vmm := (empty.vmmMapPage v 0x5000 1).2

theorem enough_oneMapped {v p : UInt64} (h : (oneMapped 0x400000).supply = [5, 6, 7, 8]) :
    (oneMapped 0x400000).Enough v p 1 1 := by
  intro m hm _
  obtain rfl : m = 0 := by omega
  exact ⟨5, 6, 7, [8], h, by decide, by decide, by decide⟩

/-- A page is mapped where there is a page table. -/
theorem mapped_beside : (∀ n ≤ (1 : UInt32), CallSound (oneMapped 0x400000) 0x401000 0x6000 n.toNat
    ((oneMapped 0x400000).vmmMapPages 0x401000 0x6000 n 1)) ∧
    ∀ l ≤ (4096 : UInt64), CallSound (oneMapped 0x400000) 0x401000 0x6000 (trueCount l)
      ((oneMapped 0x400000).vmmMapRange 0x401000 0x6000 l 1) := by
  obtain ⟨place, hready⟩ := ready_pass ready_empty spare_empty 0x400000 0x5000 1
  have henough := enough_oneMapped (v := 0x401000) (p := 0x6000) (by decide)
  have hiff := mapRange_iff hready (v := 0x401000) (p := 0x6000) (by decide) (by decide) 1 4096
    henough fun _ => henough
  have hfits : (oneMapped 0x400000).Fits 0x401000 0x6000 1 1 := by
    intro m hm _
    obtain rfl : m = 0 := by omega
    refine ⟨fun _ k hk => absurd hk (Nat.not_lt_zero k), fun _ => ⟨⟨.page 4, ?_, ?_⟩, fun h => absurd h (by decide)⟩⟩
    · rfl
    · exact show 0x6000 + 0 % 2 ^ 20 * 4096 < 2 ^ 40 by decide
  exact ⟨hiff.1.mpr hfits, hiff.2.mpr ⟨by decide, hfits⟩⟩

/-- **A range that is left half mapped**: the second page of two is there already, -2 is returned, and the first one has
another translation than before. And 16 TB are mapped by mapping nothing. The tables are a tree and there are pages for
more. -/
theorem half_mapped : (∃ place, Ready (oneMapped 0x401000) place) ∧ (oneMapped 0x401000).supply = [5, 6, 7, 8] ∧
      ¬ CallSound (oneMapped 0x401000) 0x400000 0x8000 2 ((oneMapped 0x401000).vmmMapPages 0x400000 0x8000 2 1) ∧
      ¬ CallSound (oneMapped 0x401000) 0x800000 0x8000 (trueCount 0x100000000000)
        ((oneMapped 0x401000).vmmMapRange 0x800000 0x8000 0x100000000000 1) := by
  refine ⟨ready_pass ready_empty spare_empty 0x401000 0x5000 1, by decide, fun h => ?_, fun h => ?_⟩
  · have hsame := h.failed (by decide) 0x400000
    exact absurd hsame (by decide)
  · have hmapped := (h.mapped (by decide)).mapped 0 (by decide) 0x800000 (by decide)
    exact absurd hmapped (by decide)

end Chicago95.Stage2.Vmm
