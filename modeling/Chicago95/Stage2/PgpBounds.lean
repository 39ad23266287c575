/-
# Chicago95.Stage2.PgpBounds — what the readers of `security/common/pgp/pgp.c` access.

A reader that checks what is left of the body before each field stays in it (`Inside`, with one rule for a
bind, one for a check and one for each reader). `pgp_sig_from_pkt` always does.
-/
import Chicago95.Stage2.PgpHybrid

namespace Chicago95.Stage2.Pgp

open Chicago95.Stage2.Mpi Chicago95.Stage2.Aes

/-! ## Staying inside -/

/-- A reader that has not gone outside. -/
def Inside {α : Type} (x : Except Stop α) : Prop := x ≠ .error .outside

section Inside

variable {α β : Type}

theorem inside_ok (a : α) : Inside (Except.ok a : Except Stop α) := nofun

theorem inside_err (code : Int) : Inside (Except.error (.err code) : Except Stop α) := nofun

theorem Inside.bind {x : Except Stop α} {f : α → Except Stop β} (hx : Inside x)
    (hf : ∀ a, x = .ok a → Inside (f a)) : Inside (x >>= f) := by
  cases x with
  | error e => exact fun h => hx (congrArg Except.error (Except.error.inj h))
  | ok a => exact hf a rfl

theorem inside_guard {p : Prop} [Decidable p] {code : Int} {f : α → Except Stop β} {k : Except Stop β}
    (hk : ¬ p → Inside k) : Inside (if p then Except.error (.err code) >>= f else k) := by
  by_cases hp : p
  · rw [if_pos hp]
    exact inside_err code
  · rw [if_neg hp]
    exact hk hp

theorem inside_need (n : Nat) (body : List UInt8) : Inside (need n body) := by
  unfold need
  split
  · exact inside_err _
  · exact inside_ok _

theorem le_of_need {n : Nat} {body : List UInt8} {u : Unit} (h : need n body = .ok u) : n ≤ body.length := by
  unfold need at h
  split at h
  · cases h
  · omega

theorem inside_byte {body : List UInt8} (h : 1 ≤ body.length) : Inside (byte body) := by
  cases body with
  | nil => exact absurd h (by decide)
  | cons b rest => exact inside_ok _

theorem inside_takeBytes {n : Nat} {body : List UInt8} (h : n ≤ body.length) : Inside (takeBytes n body) := by
  unfold takeBytes
  rw [if_neg (Nat.not_lt.mpr h)]
  exact inside_ok _

theorem inside_word {body : List UInt8} (h : 4 ≤ body.length) : Inside (word body) :=
  (inside_takeBytes h).bind fun _ _ => inside_ok _

theorem inside_openPacket (accepts : UInt8 → Bool) (buf : List UInt8) : Inside (openPacket accepts buf) := by
  unfold openPacket
  refine (inside_need _ _).bind fun _ h1 => (inside_byte (le_of_need h1)).bind fun tag _ => ?_
  refine inside_guard fun _ => (inside_need _ _).bind fun _ h4 => (inside_word (le_of_need h4)).bind fun _ _ => ?_
  exact inside_guard fun _ => inside_guard fun _ => inside_ok _

theorem inside_readMpi (body : List UInt8) : Inside (readMpi body) := by
  unfold readMpi
  refine (inside_need _ _).bind fun _ _ => (inside_need _ _).bind fun _ h => ?_
  exact (inside_takeBytes (le_of_need h)).bind fun _ _ => inside_ok _

theorem inside_readMpiOpt (body : List UInt8) : Inside (readMpiOpt body) := by
  unfold readMpiOpt
  split
  · exact inside_ok _
  · exact inside_readMpi body

theorem of_bind_outside {x : Except Stop α} {f : α → Except Stop β} (hx : Inside x)
    (h : (x >>= f) = .error .outside) : ∃ a, x = .ok a ∧ f a = .error .outside := by
  cases x with
  | error e => exact absurd (congrArg Except.error (Except.error.inj h)) hx
  | ok a => exact ⟨a, rfl, h⟩

theorem of_guard_outside {p : Prop} [Decidable p] {code : Int} {f : α → Except Stop β} {k : Except Stop β}
    (h : (if p then Except.error (.err code) >>= f else k) = .error .outside) : ¬ p ∧ k = .error .outside := by
  by_cases hp : p
  · rw [if_pos hp] at h
    cases h
  · rw [if_neg hp] at h
    exact ⟨hp, h⟩

end Inside

/-! ## What is read -/

theorem byte_eq_ok_iff {body rest : List UInt8} {b : UInt8} : byte body = .ok (b, rest) ↔ body = b :: rest := by
  cases body with
  | nil => exact iff_of_false nofun nofun
  | cons c body =>
    rw [byte_cons, Except.ok.injEq, Prod.mk.injEq, List.cons.injEq]

theorem takeBytes_eq_ok_iff {n : Nat} {body bytes rest : List UInt8} :
    takeBytes n body = .ok (bytes, rest) ↔ bytes.length = n ∧ body = bytes ++ rest := by
  constructor
  · intro h
    unfold takeBytes at h
    split at h
    · cases h
    · obtain ⟨rfl, rfl⟩ := Prod.mk.inj (Except.ok.inj h)
      exact ⟨by rw [List.length_take]; omega, (List.take_append_drop n body).symm⟩
  · rintro ⟨hlen, rfl⟩
    exact takeBytes_append hlen

theorem word_eq_ok_iff {body rest : List UInt8} {x : UInt32} :
    word body = .ok (x, rest) ↔ body = be32 x.toNat ++ rest := by
  constructor
  · intro h
    obtain ⟨⟨bytes, rest'⟩, hbytes, hword⟩ := bind_eq_ok.mp h
    obtain ⟨hlen, hbody⟩ := takeBytes_eq_ok_iff.mp hbytes
    obtain ⟨hx, rfl⟩ := Prod.mk.inj (Except.ok.inj hword)
    rw [hbody, (word_eq_iff hlen).mp hx]
  · rintro rfl
    rw [word_be32 x.toNat_lt, UInt32.ofNat_toNat]

theorem openPacket_eq_ok_iff {accepts : UInt8 → Bool} {buf body : List UInt8} {tag : UInt8} :
    openPacket accepts buf = .ok (tag, body) ↔ accepts tag = true ∧ ∃ (bodyLen : Nat) (rest : List UInt8),
      buf = tag :: (be32 bodyLen ++ rest) ∧ 0 < bodyLen ∧ 5 + bodyLen < 2 ^ 32 ∧ bodyLen ≤ rest.length ∧
        body = rest.take bodyLen := by
  constructor
  · intro h
    unfold openPacket at h
    obtain ⟨-, -, h⟩ := bind_eq_ok.mp h
    obtain ⟨⟨tag', rest⟩, htag, h⟩ := bind_eq_ok.mp h
    obtain ⟨haccepts, h⟩ := guard_eq_ok.mp h
    obtain ⟨-, -, h⟩ := bind_eq_ok.mp h
    obtain ⟨⟨bodyLen, rest'⟩, hword, h⟩ := bind_eq_ok.mp h
    obtain ⟨hroom, h⟩ := guard_eq_ok.mp h
    obtain ⟨hpos, h⟩ := guard_eq_ok.mp h
    obtain ⟨rfl, rfl⟩ := Prod.mk.inj (Except.ok.inj h)
    rw [byte_eq_ok_iff] at htag
    rw [word_eq_ok_iff] at hword
    have hlt := bodyLen.toNat_lt
    have hlen : buf.length = 5 + rest'.length := by
      rw [htag, hword, List.length_cons, List.length_append, length_be32]
      omega
    have hend : (5 + bodyLen.toNat) % 2 ^ 32 = 5 + bodyLen.toNat := by omega
    rw [hend, Nat.add_sub_cancel_left]
    exact ⟨Bool.not_eq_false _ ▸ haccepts, bodyLen.toNat, rest', by rw [htag, hword], by omega, by omega,
      by omega, rfl⟩
  · rintro ⟨haccepts, bodyLen, rest, rfl, hpos, hmax, hroom, rfl⟩
    rw [openPacket_written haccepts hpos hmax, if_neg (Nat.not_lt.mpr hroom)]

theorem body_pos {accepts : UInt8 → Bool} {buf body : List UInt8} {tag : UInt8}
    (h : openPacket accepts buf = .ok (tag, body)) : 1 ≤ body.length := by
  obtain ⟨-, bodyLen, rest, -, hpos, -, hroom, rfl⟩ := openPacket_eq_ok_iff.mp h
  rw [List.length_take]
  omega

theorem inside_pgpSigFromPkt (buf : List UInt8) : Inside (pgpSigFromPkt buf) := by
  unfold pgpSigFromPkt
  refine (inside_openPacket _ _).bind fun _ hopen => (inside_byte (body_pos hopen)).bind fun _ _ => ?_
  refine inside_guard fun _ => ?_
  refine (inside_need _ _).bind fun _ h => (inside_byte (le_of_need h)).bind fun _ _ => ?_
  refine (inside_need _ _).bind fun _ h => (inside_byte (le_of_need h)).bind fun _ _ => ?_
  refine (inside_need _ _).bind fun _ h => (inside_byte (le_of_need h)).bind fun hashStart _ => ?_
  refine (inside_need _ _).bind fun _ h =>
    (inside_takeBytes (Nat.le_trans (Nat.le_add_right _ _) (le_of_need h))).bind fun _ _ => ?_
  refine (inside_need _ _).bind fun _ h => (inside_word (le_of_need h)).bind fun _ _ => ?_
  refine (inside_need _ _).bind fun _ h => (inside_takeBytes (le_of_need h)).bind fun _ _ => ?_
  exact (inside_readMpi _).bind fun _ _ => inside_ok _

/-! ## Keys -/

/-- The packet form of a number: the count of its bits in two bytes, and as many bytes as that takes. -/
def IsMpi (m : List UInt8) : Prop := m.length = (headerBits m + 7) / 8 + 2

/-- Up to `n` numbers, and what is left when there are fewer. -/
def Mpis : Nat → List UInt8 → Prop
  | 0, _ => True
  | n + 1, l => l.length < 2 ∨ ∃ m rest, l = m ++ rest ∧ IsMpi m ∧ Mpis n rest

/-- What may stand in the body of a private key behind the public part. -/
def PrivateTail (tail : List UInt8) : Prop :=
  tail = [] ∨ ∃ usage d rest, tail = usage :: (d ++ rest) ∧ IsMpi d ∧ Mpis 5 rest

/-- **A key packet**: the tag, the length of the body, and a body of version 4 with the time, the algorithm,
`n` and `e`. -/
def KeyPacket (buf : List UInt8) : Prop :=
  ∃ (tag : UInt8) (bodyLen : Nat) (rest : List UInt8), (tag = 0x99 ∨ tag = 0x95) ∧
    buf = tag :: (be32 bodyLen ++ rest) ∧ 0 < bodyLen ∧ 5 + bodyLen < 2 ^ 32 ∧ bodyLen ≤ rest.length ∧
    ∃ (timestamp : UInt32) (algo : UInt8) (n e tail : List UInt8), rest.take bodyLen =
        4 :: (be32 timestamp.toNat ++ (algo :: (n ++ (e ++ tail)))) ∧
      IsMpi n ∧ IsMpi e ∧ (tag = 0x95 → PrivateTail tail)

theorem headerBits_append {m rest : List UInt8} (h : 2 ≤ m.length) : headerBits (m ++ rest) = headerBits m := by
  unfold headerBits
  simp only [List.getD_eq_getElem?_getD]
  rw [List.getElem?_append_left (by omega), List.getElem?_append_left (by omega)]

theorem readMpi_iff_isMpi {body rest : List UInt8} :
    (∃ x, readMpi body = .ok (x, rest)) ↔ ∃ m, body = m ++ rest ∧ IsMpi m := by
  constructor
  · rintro ⟨x, h⟩
    obtain ⟨hroom, -, rfl⟩ := readMpi_eq_ok_iff.mp h
    refine ⟨body.take ((headerBits body + 7) / 8 + 2), (List.take_append_drop _ _).symm, ?_⟩
    unfold IsMpi
    rw [headerBits_take (by omega), List.length_take]
    omega
  · rintro ⟨m, rfl, hm⟩
    have hbits : headerBits (m ++ rest) = headerBits m := headerBits_append (by
      unfold IsMpi at hm
      omega)
    unfold IsMpi at hm
    refine ⟨_, readMpi_eq_ok_iff.mpr ⟨?_, rfl, ?_⟩⟩
    · rw [hbits, List.length_append]
      omega
    · rw [hbits, ← hm, List.drop_left]

theorem exists_readMpiOpt_iff {body rest : List UInt8} : (∃ x, readMpiOpt body = .ok (x, rest)) ↔
      (body.length < 2 ∧ rest = body) ∨ (2 ≤ body.length ∧ ∃ m, body = m ++ rest ∧ IsMpi m) := by
  unfold readMpiOpt
  by_cases hshort : body.length < 2
  · rw [if_pos hshort]
    constructor
    · rintro ⟨x, h⟩
      exact Or.inl ⟨hshort, (Prod.mk.inj (Except.ok.inj h)).2.symm⟩
    · rintro (⟨-, rfl⟩ | ⟨h, -⟩)
      · exact ⟨_, rfl⟩
      · omega
  · rw [if_neg hshort, readMpi_iff_isMpi]
    constructor
    · exact fun h => Or.inr ⟨by omega, h⟩
    · rintro (⟨h, -⟩ | ⟨-, h⟩)
      · exact absurd h hshort
      · exact h

theorem mpis_succ_iff {n : Nat} {body : List UInt8} :
    Mpis (n + 1) body ↔ ∃ x rest, readMpiOpt body = .ok (x, rest) ∧ Mpis n rest := by
  constructor
  · rintro (hshort | ⟨m, rest, hbody, hm, hrest⟩)
    · obtain ⟨x, hx⟩ := exists_readMpiOpt_iff.mpr (Or.inl ⟨hshort, rfl⟩)
      refine ⟨x, body, hx, ?_⟩
      cases n with
      | zero => trivial
      | succ n => exact Or.inl hshort
    · have hlen : 2 ≤ body.length := by
        rw [hbody, List.length_append]
        unfold IsMpi at hm
        omega
      obtain ⟨x, hx⟩ := exists_readMpiOpt_iff.mpr (Or.inr ⟨hlen, m, hbody, hm⟩)
      exact ⟨x, rest, hx, hrest⟩
  · rintro ⟨x, rest, hx, hrest⟩
    rcases exists_readMpiOpt_iff.mp ⟨x, hx⟩ with ⟨hshort, -⟩ | ⟨-, m, hbody, hm⟩
    · exact Or.inl hshort
    · exact Or.inr ⟨m, rest, hbody, hm, hrest⟩

theorem exists_readPrivate_iff {pub : PgpRsaKey} {tail : List UInt8} (hne : tail ≠ []) :
    (∃ rsa, readPrivate pub tail = .ok rsa) ↔ PrivateTail tail := by
  constructor
  · rintro ⟨rsa, h⟩
    unfold readPrivate at h
    obtain ⟨⟨usage, body⟩, husage, h⟩ := bind_eq_ok.mp h
    obtain ⟨-, -, h⟩ := bind_eq_ok.mp h
    obtain ⟨⟨d, restD⟩, hd, h⟩ := bind_eq_ok.mp h
    obtain ⟨⟨p, restP⟩, hp, h⟩ := bind_eq_ok.mp h
    obtain ⟨⟨q, restQ⟩, hq, h⟩ := bind_eq_ok.mp h
    obtain ⟨⟨dp, restDp⟩, hdp, h⟩ := bind_eq_ok.mp h
    obtain ⟨⟨dq, restDq⟩, hdq, h⟩ := bind_eq_ok.mp h
    obtain ⟨⟨qinv, restQinv⟩, hqinv, -⟩ := bind_eq_ok.mp h
    obtain ⟨m, hbody, hm⟩ := readMpi_iff_isMpi.mp ⟨d, hd⟩
    rw [byte_eq_ok_iff] at husage
    refine Or.inr ⟨usage, m, restD, by rw [husage, hbody], hm, ?_⟩
    exact mpis_succ_iff.mpr ⟨p, restP, hp, mpis_succ_iff.mpr ⟨q, restQ, hq, mpis_succ_iff.mpr ⟨dp, restDp, hdp,
      mpis_succ_iff.mpr ⟨dq, restDq, hdq, mpis_succ_iff.mpr ⟨qinv, restQinv, hqinv, trivial⟩⟩⟩⟩⟩
  · rintro (hnil | ⟨usage, m, rest, rfl, hm, hrest⟩)
    · exact absurd hnil hne
    obtain ⟨d, hd⟩ : ∃ d, readMpi (m ++ rest) = .ok (d, rest) := readMpi_iff_isMpi.mpr ⟨m, rfl, hm⟩
    obtain ⟨p, restP, hp, hrest⟩ := mpis_succ_iff.mp hrest
    obtain ⟨q, restQ, hq, hrest⟩ := mpis_succ_iff.mp hrest
    obtain ⟨dp, restDp, hdp, hrest⟩ := mpis_succ_iff.mp hrest
    obtain ⟨dq, restDq, hdq, hrest⟩ := mpis_succ_iff.mp hrest
    obtain ⟨qinv, restQinv, hqinv, -⟩ := mpis_succ_iff.mp hrest
    have hlen : 1 ≤ (m ++ rest).length := by
      rw [List.length_append]
      unfold IsMpi at hm
      omega
    unfold readPrivate
    simp only [byte_cons, ok_bind, need_of_le hlen, hd, hp, hq, hdp, hdq, hqinv]
    exact ⟨_, rfl⟩

theorem length_fingerprintDigest (frame : HashFrame) (timestamp : UInt32) (rsa : PgpRsaKey) :
    (fingerprintDigest frame timestamp rsa).length = 32 := by
  unfold fingerprintDigest sha256Stream secSha256Final Sha2.finish Sha2.digest
  rw [List.length_map, List.length_range]

theorem pgpKeyFromPkt_ok {frame : HashFrame} {buf : List UInt8} {read : ReadKey}
    (h : pgpKeyFromPkt frame buf = .ok read) : KeyPacket buf ∧ read.overrun = true := by
  unfold pgpKeyFromPkt at h
  obtain ⟨⟨tag, body⟩, hopen, h⟩ := bind_eq_ok.mp h
  obtain ⟨⟨version, body1⟩, hversion, h⟩ := bind_eq_ok.mp h
  obtain ⟨hfour, h⟩ := guard_eq_ok.mp h
  obtain ⟨-, -, h⟩ := bind_eq_ok.mp h
  obtain ⟨⟨timestamp, body2⟩, htime, h⟩ := bind_eq_ok.mp h
  obtain ⟨-, -, h⟩ := bind_eq_ok.mp h
  obtain ⟨⟨algo, body3⟩, halgo, h⟩ := bind_eq_ok.mp h
  obtain ⟨⟨n, body4⟩, hn, h⟩ := bind_eq_ok.mp h
  obtain ⟨⟨e, tail⟩, he, h⟩ := bind_eq_ok.mp h
  -- each read has taken its form off the body
  obtain ⟨haccepts, bodyLen, rest, hbuf, hpos, hmax, hroom, hbody⟩ := openPacket_eq_ok_iff.mp hopen
  obtain ⟨mn, hbody3, hmn⟩ := readMpi_iff_isMpi.mp ⟨n, hn⟩
  obtain ⟨me, hbody4, hme⟩ := readMpi_iff_isMpi.mp ⟨e, he⟩
  rw [byte_eq_ok_iff] at hversion halgo
  rw [word_eq_ok_iff] at htime
  have htag : tag = 0x99 ∨ tag = 0x95 := by
    rw [Bool.or_eq_true, decide_eq_true_iff, decide_eq_true_iff] at haccepts
    exact haccepts
  have hform : rest.take bodyLen = 4 :: (be32 timestamp.toNat ++ (algo :: (mn ++ (me ++ tail)))) := by
    rw [← hbody, hversion, not_not.mp hfour, htime, halgo, hbody3, hbody4]
  have hpacket : (tag = 0x95 → PrivateTail tail) → KeyPacket buf := fun htail =>
    ⟨tag, bodyLen, rest, htag, hbuf, hpos, hmax, hroom, timestamp, algo, mn, me, tail, hform, hmn, hme, htail⟩
  -- private or not, the digest is written
  dsimp only at h
  split at h
  · rename_i hpriv
    obtain ⟨rsa, hrsa, h⟩ := bind_eq_ok.mp h
    refine ⟨hpacket fun _ => (exists_readPrivate_iff hpriv.2).mp ⟨rsa, hrsa⟩, ?_⟩
    rw [← Except.ok.inj h]
    dsimp only
    rw [length_fingerprintDigest, Bool.or_eq_true]
    exact Or.inr (by decide)
  · rename_i hpub
    refine ⟨hpacket fun h95 => Or.inl ?_, ?_⟩
    · by_contra hne
      exact hpub ⟨Or.inl h95, hne⟩
    · rw [← Except.ok.inj h]
      dsimp only
      rw [length_fingerprintDigest, Bool.or_eq_true]
      exact Or.inr (by decide)

theorem exists_pgpKeyFromPkt_iff (frame : HashFrame) (buf : List UInt8) :
    (∃ read, pgpKeyFromPkt frame buf = .ok read) ↔ KeyPacket buf := by
  refine ⟨fun ⟨read, h⟩ => (pgpKeyFromPkt_ok h).1, ?_⟩
  rintro ⟨tag, bodyLen, rest, htag, hbuf, hpos, hmax, hroom, timestamp, algo, mn, me, tail, hform, hmn, hme,
    htail⟩
  have hopen : openPacket (fun tag => decide (tag = 0x99) || decide (tag = 0x95)) buf =
      .ok (tag, 4 :: (be32 timestamp.toNat ++ (algo :: (mn ++ (me ++ tail))))) := by
    refine openPacket_eq_ok_iff.mpr ⟨?_, bodyLen, rest, hbuf, hpos, hmax, hroom, hform.symm⟩
    rw [Bool.or_eq_true, decide_eq_true_iff, decide_eq_true_iff]
    exact htag
  obtain ⟨n, hn⟩ : ∃ n, readMpi (mn ++ (me ++ tail)) = .ok (n, me ++ tail) :=
    readMpi_iff_isMpi.mpr ⟨mn, rfl, hmn⟩
  obtain ⟨e, he⟩ : ∃ e, readMpi (me ++ tail) = .ok (e, tail) := readMpi_iff_isMpi.mpr ⟨me, rfl, hme⟩
  unfold pgpKeyFromPkt
  rw [hopen, ok_bind]
  dsimp only
  rw [byte_cons, ok_bind]
  dsimp only
  rw [if_neg (by decide), need_of_le (by rw [List.length_append, length_be32]; omega), ok_bind,
    word_be32 timestamp.toNat_lt, ok_bind]
  dsimp only
  rw [need_of_le (Nat.succ_pos _), ok_bind, byte_cons, ok_bind]
  dsimp only
  rw [hn, ok_bind]
  dsimp only
  rw [he, ok_bind]
  dsimp only
  split
  · rename_i hpriv
    -- of the two tags of a private key, `0xBF` is not let through
    have h95 : tag = 0x95 := by
      rcases hpriv.1 with h | h
      · exact h
      · rcases htag with rfl | rfl
        · exact absurd h (by decide)
        · rfl
    obtain ⟨rsa, hrsa⟩ : ∃ rsa, readPrivate { n := n, e := e } tail = .ok rsa :=
      (exists_readPrivate_iff hpriv.2).mpr (htail h95)
    rw [hrsa, ok_bind]
    exact ⟨_, rfl⟩
  · exact ⟨_, rfl⟩

theorem inside_readPrivate (pub : PgpRsaKey) {tail : List UInt8} (h : tail ≠ []) : Inside (readPrivate pub tail) := by
  unfold readPrivate
  refine (inside_byte (List.length_pos_iff.mpr h)).bind fun _ _ => (inside_need _ _).bind fun _ _ => ?_
  refine (inside_readMpi _).bind fun _ _ => (inside_readMpiOpt _).bind fun _ _ => ?_
  refine (inside_readMpiOpt _).bind fun _ _ => (inside_readMpiOpt _).bind fun _ _ => ?_
  exact (inside_readMpiOpt _).bind fun _ _ => (inside_readMpiOpt _).bind fun _ _ => inside_ok _

theorem inside_pgpKeyFromPkt (frame : HashFrame) (buf : List UInt8) : Inside (pgpKeyFromPkt frame buf) := by
  unfold pgpKeyFromPkt
  refine (inside_openPacket _ _).bind fun _ hopen => (inside_byte (body_pos hopen)).bind fun _ _ => ?_
  refine inside_guard fun _ => ?_
  refine (inside_need _ _).bind fun _ h => (inside_word (le_of_need h)).bind fun _ _ => ?_
  refine (inside_need _ _).bind fun _ h => (inside_byte (le_of_need h)).bind fun _ _ => ?_
  refine (inside_readMpi _).bind fun _ _ => (inside_readMpi _).bind fun _ _ => ?_
  dsimp only
  split
  · rename_i hpriv
    exact (inside_readPrivate _ hpriv.2).bind fun _ _ => inside_ok _
  · exact inside_ok _

/-! ## Decrypting -/

/-- `data_len` of `pgp_decrypt`. -/
def dataLen (sedBody : Nat) : Nat := (sedBody + (2 ^ 32 - 1 - 12 - 16)) % 2 ^ 32

/-- The most bytes that `ghash_input` has room for, with the lengths behind them. -/
def hashedMax : Nat := ghashInputSize - 16

section Decrypt

variable {fuel : Nat} {frame : AesFrame} {key : PgpRsaKeyPair} {stack : Vector UInt8 32} {input out : List UInt8}

theorem ghashInput_isSome_iff (hashed : Nat → UInt8) (ciphertext : List UInt8) :
    (ghashInput hashed [] ciphertext ciphertext.length).isSome ↔ ciphertext.length ≤ hashedMax := by
  unfold ghashInput hashedMax ghashInputSize align16
  rw [if_neg (by decide)]
  dsimp only
  split
  · exact iff_of_false (by decide) (by simp at *; omega)
  · split
    · exact iff_of_false (by decide) (by simp at *; omega)
    · exact iff_of_true rfl (by simp at *; omega)

theorem inside_power (c : Crypto) (a e m : Mpi) : Inside (power c a e m) := by
  unfold power
  split
  · nofun
  · exact inside_ok _

theorem inside_pgpRsaDecrypt (c : Crypto) (key : PgpRsaKeyPair) (input : List UInt8) (outLen : Nat) :
    Inside (pgpRsaDecrypt c key input outLen) := by
  unfold pgpRsaDecrypt
  refine (inside_power _ _ _ _).bind fun _ _ => ?_
  exact inside_guard fun _ => inside_guard fun _ => inside_guard fun _ => inside_ok _

/-- The end of `pgp_decrypt`, from the `n` bytes of data on. -/
def openSed (c : Crypto) (sessionKey : List UInt8) (n : Nat) (iv tail out : List UInt8) :
    Except Stop (Nat × List UInt8) := do
  let (ciphertext, rest) ← takeBytes n tail
  let (tag, _) ← takeBytes 16 rest
  match c.gcmDecrypt sessionKey ciphertext out iv tag with
  | none => .error .outside
  | some (ret, plaintext) =>
    if ret ≠ 0 then .error (.err pgpErrDecrypt)
    else if out.length < n then .error .outside
    else .ok (n, plaintext)

/-- The tag behind the `n` bytes of data is the right one. -/
def TagAccepted (fuel : Nat) (frame : AesFrame) (sessionKey : List UInt8) (n : Nat)
    (iv tail out : List UInt8) : Prop :=
  ∃ plaintext, (secCrypto fuel frame).gcmDecrypt sessionKey (tail.take n) out iv
    ((tail.drop n).take 16) = some (0, plaintext)

/-- More data than `ghash_input` has room for, or than `out` has, behind a tag that is right. -/
def Overflows (fuel : Nat) (frame : AesFrame) (sessionKey : List UInt8) (n : Nat)
    (iv tail out : List UInt8) : Prop :=
  hashedMax < n ∨
    (TagAccepted fuel frame sessionKey n iv tail out ∧ out.length < n)

theorem gcmDecrypt_isSome_iff (fuel : Nat) (frame : AesFrame) (sessionKey ciphertext out iv tag : List UInt8) :
    ((secCrypto fuel frame).gcmDecrypt sessionKey ciphertext out iv tag).isSome ↔ ciphertext.length ≤ hashedMax := by
  unfold secCrypto secAes256GcmDecrypt
  dsimp only
  rw [Option.isSome_map, ghashInput_isSome_iff]

theorem openSed_outside_iff {sessionKey iv tail : List UInt8} {n : Nat} (hroom : n ≤ hashedMax → n + 16 ≤ tail.length) :
    openSed (secCrypto fuel frame) sessionKey n iv tail out = .error .outside ↔
      Overflows fuel frame sessionKey n iv tail out := by
  unfold openSed Overflows TagAccepted takeBytes
  -- too much data: the reads or the cipher go outside
  by_cases hlong : hashedMax < n
  · refine iff_of_true ?_ (Or.inl hlong)
    by_cases hdata : tail.length < n
    · rw [if_pos hdata, error_bind]
    rw [if_neg hdata, ok_bind]
    dsimp only
    by_cases htag : (tail.drop n).length < 16
    · rw [if_pos htag, error_bind]
    rw [if_neg htag, ok_bind]
    dsimp only
    have hnone := (gcmDecrypt_isSome_iff fuel frame sessionKey (tail.take n) out iv
      ((tail.drop n).take 16)).not.mpr (by
        rw [List.length_take]
        omega)
    rw [Option.not_isSome_iff_eq_none] at hnone
    rw [hnone]
  -- the data is there and is decrypted, which leaves the size of `out`
  · have hlen := hroom (Nat.le_of_not_lt hlong)
    rw [or_iff_right hlong, if_neg (by omega), ok_bind]
    dsimp only
    rw [if_neg (by rw [List.length_drop]; omega), ok_bind]
    dsimp only
    have hsome := (gcmDecrypt_isSome_iff fuel frame sessionKey (tail.take n) out iv
      ((tail.drop n).take 16)).mpr (by
        rw [List.length_take]
        omega)
    obtain ⟨⟨ret, plaintext⟩, hgcm⟩ := Option.isSome_iff_exists.mp hsome
    rw [hgcm]
    dsimp only
    by_cases hret : ret = 0
    · subst hret
      have haccepted : ∃ p, some ((0 : Int), plaintext) = some (0, p) := ⟨plaintext, rfl⟩
      rw [if_neg (by decide), and_iff_right haccepted]
      by_cases hout : out.length < n
      · rw [if_pos hout]
        exact iff_of_true rfl hout
      · rw [if_neg hout]
        exact iff_of_false nofun hout
    · rw [if_pos hret]
      refine iff_of_false (inside_err _) ?_
      rintro ⟨⟨_, h⟩, -⟩
      exact hret (Prod.mk.inj (Option.some.inj h)).1

/-- **A packet that `pgp_decrypt` leaves**: its session key is found and the length behind the tag is not too
large, and either that is the end of it, or the data behind the version and the IV overflow. -/
def DecryptTrespasses (fuel : Nat) (frame : AesFrame) (key : PgpRsaKeyPair) (stack : Vector UInt8 32)
    (input out : List UInt8) : Prop :=
  ∃ (pkesk read : List UInt8) (sedBody : UInt32) (rest : List UInt8),
    input = pkesk ++ (0x85 :: (be32 sedBody.toNat ++ rest)) ∧ pkesk.length = pgpRsaBytes + 2 ∧
    pgpRsaDecrypt (secCrypto fuel frame) key pkesk sessionKeySize = .ok read ∧
    (263 + sedBody.toNat) % 2 ^ 32 ≤ input.length ∧
    (rest = [] ∨ ∃ iv tail, rest = 4 :: (iv ++ tail) ∧ iv.length = 12 ∧
      Overflows fuel frame (read ++ stack.toList.drop read.length) (dataLen sedBody.toNat) iv tail out)

theorem room_check {sedBody : UInt32} {len : Nat} (h : (263 + sedBody.toNat) % 2 ^ 32 ≤ len) :
    ¬ len < (276 + dataLen sedBody.toNat + 16) % 2 ^ 32 := by
  have hlt := sedBody.toNat_lt
  unfold dataLen
  omega

theorem room_of_sed {sedBody : UInt32} {left : Nat} (h : (263 + sedBody.toNat) % 2 ^ 32 ≤ 276 + left)
    (hmax : dataLen sedBody.toNat ≤ hashedMax) : dataLen sedBody.toNat + 16 ≤ left := by
  have hlt := sedBody.toNat_lt
  unfold hashedMax ghashInputSize at hmax
  unfold dataLen at hmax ⊢
  omega

theorem pgpDecrypt_outside_iff : pgpDecrypt (secCrypto fuel frame) key stack input out = .error .outside ↔
      DecryptTrespasses fuel frame key stack input out := by
  constructor
  · intro h
    unfold pgpDecrypt at h
    obtain ⟨hlen, h⟩ := of_guard_outside h
    obtain ⟨⟨pkesk, rest⟩, hpkesk, h⟩ := of_bind_outside (inside_takeBytes (by unfold pgpRsaBytes; omega)) h
    obtain ⟨read, hread, h⟩ := of_bind_outside (inside_pgpRsaDecrypt _ _ _ _) h
    obtain ⟨_, hneed, h⟩ := of_bind_outside (inside_need _ _) h
    obtain ⟨⟨tag, rest1⟩, htag, h⟩ := of_bind_outside (inside_byte (le_of_need hneed)) h
    obtain ⟨h85, h⟩ := of_guard_outside h
    obtain ⟨_, hneed, h⟩ := of_bind_outside (inside_need _ _) h
    obtain ⟨⟨sedBody, rest2⟩, hword, h⟩ := of_bind_outside (inside_word (le_of_need hneed)) h
    obtain ⟨hsed, h⟩ := of_guard_outside h
    obtain ⟨hpkeskLen, hinput⟩ := takeBytes_eq_ok_iff.mp hpkesk
    rw [byte_eq_ok_iff] at htag
    rw [word_eq_ok_iff] at hword
    -- up to here every read is checked; the version is not
    refine ⟨pkesk, read, sedBody, rest2, ?_, hpkeskLen, hread, Nat.le_of_not_lt hsed, ?_⟩
    · rw [hinput, htag, not_not.mp h85, hword]
    cases rest2 with
    | nil => exact Or.inl rfl
    | cons version rest2 =>
      rw [byte_cons, ok_bind] at h
      obtain ⟨hversion, h⟩ := of_guard_outside h
      obtain ⟨_, hneed, h⟩ := of_bind_outside (inside_need _ _) h
      obtain ⟨⟨iv, tail⟩, hiv, h⟩ := of_bind_outside (inside_takeBytes (le_of_need hneed)) h
      obtain ⟨-, h⟩ := of_guard_outside h
      obtain ⟨hivLen, hrest⟩ := takeBytes_eq_ok_iff.mp hiv
      have hlen : input.length = 276 + tail.length := by
        rw [hinput, htag, hword, hrest]
        simp only [List.length_append, List.length_cons, length_be32, hpkeskLen, hivLen]
        unfold pgpRsaBytes
        omega
      have hroom : dataLen sedBody.toNat ≤ hashedMax → dataLen sedBody.toNat + 16 ≤ tail.length :=
        fun hmax => room_of_sed (by omega) hmax
      exact Or.inr ⟨iv, tail, by rw [not_not.mp hversion, hrest], hivLen, (openSed_outside_iff hroom).mp h⟩
  · rintro ⟨pkesk, read, sedBody, rest, hinput, hpkeskLen, hread, hsed, hrest⟩
    have hlen : input.length = 263 + rest.length := by
      rw [hinput]
      simp only [List.length_append, List.length_cons, length_be32, hpkeskLen]
      unfold pgpRsaBytes
      omega
    unfold pgpDecrypt
    rw [if_neg (by omega)]
    dsimp only
    rw [hinput, takeBytes_append hpkeskLen, ok_bind, ← hinput]
    dsimp only
    rw [hread, ok_bind]
    rw [need_of_le (Nat.succ_pos _), ok_bind, byte_cons, ok_bind]
    dsimp only
    rw [if_neg (by decide), need_of_le (by rw [List.length_append, length_be32]; omega), ok_bind,
      word_be32 sedBody.toNat_lt, UInt32.ofNat_toNat, ok_bind]
    dsimp only
    rw [if_neg (Nat.not_lt.mpr hsed)]
    -- the same reads, and then the end of the input or the data
    rcases hrest with rfl | ⟨iv, tail, rfl, hivLen, hover⟩
    · rfl
    rw [byte_cons, ok_bind]
    dsimp only
    rw [if_neg (by decide), need_of_le (by rw [List.length_append]; omega), ok_bind, takeBytes_append hivLen,
      ok_bind]
    rw [List.length_cons, List.length_append, hivLen] at hlen
    have hroom : dataLen sedBody.toNat ≤ hashedMax → dataLen sedBody.toNat + 16 ≤ tail.length :=
      fun hmax => room_of_sed (by omega) hmax
    exact (if_neg (room_check hsed)).trans ((openSed_outside_iff hroom).mpr hover)

end Decrypt

/-! ## What is claimed -/

/-- A call of one of the three readers. -/
inductive ParserCall
  | pgpKeyFromPkt (frame : HashFrame) (buf : List UInt8)
  | pgpSigFromPkt (buf : List UInt8)
  | pgpDecrypt (fuel : Nat) (frame : AesFrame) (key : PgpRsaKeyPair) (stack : Vector UInt8 32)
      (input out : List UInt8)

namespace ParserCall

/-- **Nothing outside of the input is read, and nothing outside of an array written.** -/
def StaysInside : ParserCall → Prop
  | pgpKeyFromPkt frame buf =>
    Inside (Pgp.pgpKeyFromPkt frame buf) ∧
      ∀ read, Pgp.pgpKeyFromPkt frame buf = .ok read → read.overrun = false
  | pgpSigFromPkt buf => Inside (Pgp.pgpSigFromPkt buf)
  | pgpDecrypt fuel frame key stack input out =>
    Inside (Pgp.pgpDecrypt (secCrypto fuel frame) key stack input out)

/-- The inputs that lead outside. -/
def Trespasses : ParserCall → Prop
  | pgpKeyFromPkt _ buf => KeyPacket buf
  | pgpSigFromPkt _ => False
  | pgpDecrypt fuel frame key stack input out => DecryptTrespasses fuel frame key stack input out

end ParserCall

theorem not_staysInside_of_keyPacket (frame : HashFrame) {buf : List UInt8} (h : KeyPacket buf) :
    ¬ (ParserCall.pgpKeyFromPkt frame buf).StaysInside := by
  rintro ⟨-, hfits⟩
  obtain ⟨read, hread⟩ := (exists_pgpKeyFromPkt_iff frame buf).mpr h
  have hover := (pgpKeyFromPkt_ok hread).2
  rw [hfits read hread] at hover
  cases hover

/-- **When a reader stays inside**: `pgp_sig_from_pkt` always, `pgp_key_from_pkt` when the packet is not a key's,
and `pgp_decrypt` when the packet does not end behind its length and its data fits the two arrays. -/
theorem staysInside_iff (call : ParserCall) : call.StaysInside ↔ ¬ call.Trespasses := by
  cases call with
  | pgpKeyFromPkt frame buf =>
    refine ⟨fun hinside hpacket => not_staysInside_of_keyPacket frame hpacket hinside, fun hnone => ?_⟩
    exact ⟨inside_pgpKeyFromPkt frame buf, fun read hread => absurd (pgpKeyFromPkt_ok hread).1 hnone⟩
  | pgpSigFromPkt buf => exact iff_of_true (inside_pgpSigFromPkt buf) id
  | pgpDecrypt fuel frame key stack input out => exact pgpDecrypt_outside_iff.not

/-- A public key with `n = 1` and `e = 1`. -/
def smallKey : List UInt8 := [0x99, 0, 0, 0, 12, 4, 0, 0, 0, 0, 1, 0, 1, 1, 0, 1, 1]

/-- **A key that is read past an array**: its fingerprint has 32 bytes. -/
theorem smallKey_overruns : ¬ (ParserCall.pgpKeyFromPkt
    { buffer := Vector.replicate 64 0, stack := Vector.replicate 64 0 } smallKey).StaysInside :=
  not_staysInside_of_keyPacket _ ⟨0x99, 12, _, Or.inl rfl, rfl, by decide, by decide, by decide, 0, 1,
    [0, 1, 1], [0, 1, 1], [], rfl, rfl, rfl, fun h => absurd h (by decide)⟩

end Chicago95.Stage2.Pgp
