/-
# Chicago95.Stage2.SaeFrames — the frames of `security/wifi_encrypt/wpa3_sae`.

`wpa3_sae_encrypt_frame` writes `nonce[12]` into the header, a byte behind its nonce of twelve.
`wpa3_sae_decrypt_frame` does not look at what `sec_aes256_gcm_decrypt` returns, so that every frame of 24
bytes and more is `SEC_OK` (`decryptFrame_status`), and a frame whose tag was refused leaves in `out` what was
there. When the plaintext comes back is what AES-GCM below makes of it (`frame_roundTrips_iff`).
-/
import Chicago95.Stage2.Gcm
import Chicago95.Stage2.Sae

namespace Chicago95.Stage2.Sae

open Chicago95.Stage2.Aes

/-- What these functions read that they do not set: what lies behind `rcon`, what the key schedule held
before, and the shift of a `uint32_t` by 32, which C leaves open. -/
structure GcmpMemory where
  behind : Nat → UInt8
  stale : Vector UInt8 240
  shift32 : UInt32 → UInt8

/-- `"GCMP"` -/
def gcmpAad : List UInt8 := [0x47, 0x43, 0x4D, 0x50]

/-- The context of `sec_aes256_init` with `tk`. -/
def tkContext (m : GcmpMemory) (s : SaeState) : Aes256Ctx := secAes256Init m.behind m.stale s.tk.toList

/-- The nonce of `wpa3_sae_encrypt_frame`. -/
def encryptNonce (m : GcmpMemory) (s : SaeState) : Vector UInt8 12 :=
  let pn := s.frameCounter
  Vector.replicate 1 (0 : UInt8) ++ s.apBssid ++
    #v[m.shift32 pn, (pn >>> 24).toUInt8, (pn >>> 16).toUInt8, (pn >>> 8).toUInt8, pn.toUInt8]

/-- The GCMP header; `nonceBehind` is `nonce[12]`. -/
def gcmpHeader (nonce : Vector UInt8 12) (nonceBehind : UInt8) : List UInt8 :=
  let n := fun i => nonce.toList.getD i 0
  [n 7, n 8, 0x00, nonceBehind, n 11, n 10, n 9, n 8]

/-- `wpa3_sae_encrypt_frame`: the frame in `out`, where it returns `SEC_OK`. -/
def wpa3SaeEncryptFrame (m : GcmpMemory) (frame : Nat → UInt8) (nonceBehind : UInt8) (s : SaeState)
    (plaintext : Option (List UInt8)) : Option (SaeState × SecStatus × List UInt8) :=
  match plaintext with
  | none => some (s, .errBadParam, [])
  | some plaintext =>
    if s.installed = 0 then some (s, .errState, [])
    else
      let nonce := encryptNonce m s
      (secAes256GcmEncrypt frame (tkContext m s) plaintext nonce gcmpAad).map fun sealed' =>
        ({ s with frameCounter := s.frameCounter + 1 }, .ok,
          gcmpHeader nonce nonceBehind ++ sealed'.1 ++ sealed'.2.toList)

/-- The nonce of `wpa3_sae_decrypt_frame`. -/
def decryptNonce (s : SaeState) (encrypted : List UInt8) : Vector UInt8 12 :=
  let hdr := fun i => encrypted.getD i 0
  Vector.replicate 1 (0 : UInt8) ++ s.clientMac ++ #v[hdr 0, hdr 1, hdr 6, hdr 5, hdr 4]

/-- `ciphertext` -/
def ciphertextField (encrypted : List UInt8) : List UInt8 := (encrypted.drop 8).take (encrypted.length - 8 - 16)

/-- `tag` -/
def tagField (encrypted : List UInt8) : Block :=
  Vector.ofFn fun i => encrypted.getD (encrypted.length - 16 + i) 0

/-- The call of `sec_aes256_gcm_decrypt`. -/
def openFrame (m : GcmpMemory) (frame : Nat → UInt8) (s : SaeState) (encrypted out : List UInt8) :
    Option (Int × List UInt8) :=
  secAes256GcmDecrypt frame (tkContext m s) (ciphertextField encrypted) out (decryptNonce s encrypted) gcmpAad
    (tagField encrypted)

/-- `wpa3_sae_decrypt_frame`: what it returns and what `out` holds then. -/
def wpa3SaeDecryptFrame (m : GcmpMemory) (frame : Nat → UInt8) (s : SaeState) (encrypted : Option (List UInt8))
    (out : List UInt8) : Option (SecStatus × List UInt8) :=
  match encrypted with
  | none => some (.errBadParam, out)
  | some encrypted =>
    if s.installed = 0 then some (.errState, out)
    else if encrypted.length < 24 then some (.errBadParam, out)
    else (openFrame m frame s encrypted out).map fun opened => (.ok, opened.2)

/-! ## What the frames should do -/

/-- The peer has installed the same key, and its addresses are the other way round. -/
structure Mirrored (s r : SaeState) : Prop where
  sender : s.installed ≠ 0
  receiver : r.installed ≠ 0
  tk : r.tk = s.tk
  clientMac : r.clientMac = s.apBssid
  apBssid : r.apBssid = s.clientMac

/-- The frame comes back as the plaintext, whatever the stacks and the buffer held. -/
def RoundTrips (m : GcmpMemory) (s r : SaeState) (plaintext : List UInt8) : Prop :=
  ∀ nonceBehind frame frame' out, ∃ s' encrypted,
    wpa3SaeEncryptFrame m frame nonceBehind s (some plaintext) = some (s', .ok, encrypted) ∧
      wpa3SaeDecryptFrame m frame' r (some encrypted) out = some (.ok, plaintext ++ out.drop plaintext.length)

/-- The frame depends on the twelve bytes of the nonce only. -/
def NonceInside (m : GcmpMemory) (s : SaeState) (plaintext : List UInt8) : Prop :=
  ∀ frame x y, wpa3SaeEncryptFrame m frame x s (some plaintext) = wpa3SaeEncryptFrame m frame y s (some plaintext)

/-- `SEC_OK` is returned only for a frame whose tag was accepted. -/
def OnlyAccepted (m : GcmpMemory) (r : SaeState) : Prop :=
  ∀ frame encrypted out opened, wpa3SaeDecryptFrame m frame r (some encrypted) out = some (.ok, opened) →
    ∃ written, openFrame m frame r encrypted out = some (secOk, written)

section Frames

variable {m : GcmpMemory} {s r : SaeState} {plaintext : List UInt8}

theorem decryptFrame_status (hr : r.installed ≠ 0) (frame : Nat → UInt8) {encrypted : List UInt8}
    (out : List UInt8) (hlen : 24 ≤ encrypted.length) : wpa3SaeDecryptFrame m frame r (some encrypted) out =
      (openFrame m frame r encrypted out).map fun opened => (.ok, opened.2) := by
  simp only [wpa3SaeDecryptFrame, if_neg hr, if_neg (Nat.not_lt.mpr hlen)]

theorem fields_append {header : List UInt8} (ciphertext : List UInt8) (tag : Block) (hheader : header.length = 8) :
    ciphertextField (header ++ ciphertext ++ tag.toList) = ciphertext ∧
      tagField (header ++ ciphertext ++ tag.toList) = tag := by
  have hlen : (header ++ ciphertext ++ tag.toList).length = 8 + ciphertext.length + 16 := by
    rw [List.length_append, List.length_append, hheader, Vector.length_toList]
  constructor
  · rw [ciphertextField, hlen, List.append_assoc, ← hheader, List.drop_left, hheader]
    rw [show 8 + ciphertext.length + 16 - 8 - 16 = ciphertext.length by omega, List.take_left]
  · rw [tagField, hlen]
    refine Vector.ext fun i hi => ?_
    rw [Vector.getElem_ofFn, show 8 + ciphertext.length + 16 - 16 + i = (header ++ ciphertext).length + i by
      rw [List.length_append, hheader]; omega, List.getD_append_right _ _ _ _ (Nat.le_add_right _ _),
      Nat.add_sub_cancel_left]
    simp [hi]

theorem decryptNonce_append {header : List UInt8} (hheader : header.length = 8) (rest : List UInt8) :
    decryptNonce r (header ++ rest) = decryptNonce r header := by
  have hget : ∀ i, i < 8 → (header ++ rest).getD i 0 = header.getD i 0 := fun i hi =>
    List.getD_append _ _ _ _ (by omega)
  simp only [decryptNonce, hget 0 (by decide), hget 1 (by decide), hget 6 (by decide), hget 5 (by decide),
    hget 4 (by decide)]

theorem openFrame_append {header ciphertext : List UInt8} {tag : Block} (hheader : header.length = 8)
    (hfit : gcmpAad.length + ciphertext.length ≤ 4064) (frame : Nat → UInt8) (out : List UInt8) :
    openFrame m frame r (header ++ ciphertext ++ tag.toList) out =
      if tag = messageTag frame (tkContext m r) (decryptNonce r header) gcmpAad ciphertext then
        some (secOk, aes256Ctr (tkContext m r) (decryptNonce r header) ciphertext ++ out.drop ciphertext.length)
      else some (secErrCrypto, out) := by
  obtain ⟨hct, htag⟩ := fields_append ciphertext tag hheader
  rw [openFrame, hct, htag, List.append_assoc, decryptNonce_append hheader]
  exact gcmDecrypt_eq out tag hfit

theorem exists_refused (frame : Nat → UInt8) (out : List UInt8) : ∃ encrypted : List UInt8, 24 ≤ encrypted.length ∧
      openFrame m frame r encrypted out = some (secErrCrypto, out) := by
  have hheader : (List.replicate 8 (0 : UInt8)).length = 8 := List.length_replicate
  obtain ⟨tag, htag⟩ : ∃ tag : Block, tag ≠ messageTag frame (tkContext m r)
      (decryptNonce r (List.replicate 8 0)) gcmpAad [] := by
    by_cases hzero : zeroBlock = messageTag frame (tkContext m r) (decryptNonce r (List.replicate 8 0)) gcmpAad []
    · refine ⟨Vector.replicate 16 1, fun hone => ?_⟩
      have hsame := hzero.trans hone.symm
      revert hsame
      decide
    · exact ⟨zeroBlock, hzero⟩
  refine ⟨List.replicate 8 0 ++ [] ++ tag.toList, ?_, ?_⟩
  · rw [List.length_append, List.length_append, hheader, Vector.length_toList]
    decide
  · rw [openFrame_append hheader (by decide), if_neg htag]

theorem not_onlyAccepted (hr : r.installed ≠ 0) : ¬ OnlyAccepted m r := by
  intro honly
  obtain ⟨encrypted, hlen, hrefused⟩ := exists_refused (m := m) (r := r) (fun _ => 0) []
  have hstatus := decryptFrame_status (m := m) hr (fun _ => 0) [] hlen
  rw [hrefused, Option.map_some] at hstatus
  obtain ⟨written, hopened⟩ := honly _ _ _ _ hstatus
  rw [hrefused] at hopened
  have hcode : secErrCrypto = secOk := congrArg Prod.fst (Option.some.inj hopened)
  exact absurd hcode (by decide)

theorem encryptFrame_eq (hs : s.installed ≠ 0) (hfit : gcmpAad.length + plaintext.length ≤ 4064)
    (frame : Nat → UInt8) (nonceBehind : UInt8) :
    wpa3SaeEncryptFrame m frame nonceBehind s (some plaintext) =
      some ({ s with frameCounter := s.frameCounter + 1 }, .ok,
        gcmpHeader (encryptNonce m s) nonceBehind ++ aes256Ctr (tkContext m s) (encryptNonce m s) plaintext ++
          (messageTag frame (tkContext m s) (encryptNonce m s) gcmpAad
            (aes256Ctr (tkContext m s) (encryptNonce m s) plaintext)).toList) := by
  simp only [wpa3SaeEncryptFrame, if_neg hs, gcmEncrypt_eq hfit, Option.map_some]

theorem encryptFrame_eq_none (hs : s.installed ≠ 0) (hlong : 4064 < gcmpAad.length + plaintext.length)
    (frame : Nat → UInt8) (nonceBehind : UInt8) :
    wpa3SaeEncryptFrame m frame nonceBehind s (some plaintext) = none := by
  simp only [wpa3SaeEncryptFrame, if_neg hs, gcmEncrypt_eq_none hlong, Option.map_none]

theorem not_nonceInside (hs : s.installed ≠ 0) (hfit : gcmpAad.length + plaintext.length ≤ 4064) :
    ¬ NonceInside m s plaintext := by
  intro hinside
  have hsame := hinside (fun _ => 0) 0 1
  rw [encryptFrame_eq hs hfit, encryptFrame_eq hs hfit] at hsame
  have hframe := congrArg (fun f => f.2.2) (Option.some.inj hsame)
  simp only [List.append_assoc, gcmpHeader, List.cons_append, List.cons.injEq] at hframe
  exact absurd hframe.2.2.2.1 (by decide)

/-! ## The round trip -/

theorem toList_encryptNonce : (encryptNonce m s).toList = 0 :: s.apBssid.toList ++
      [m.shift32 s.frameCounter, (s.frameCounter >>> 24).toUInt8, (s.frameCounter >>> 16).toUInt8,
        (s.frameCounter >>> 8).toUInt8, s.frameCounter.toUInt8] := by
  have happend : (encryptNonce m s).toList = (Vector.replicate 1 (0 : UInt8) ++ s.apBssid).toList ++ _ := Vector.toList_append
  rw [happend, Vector.toList_append]
  rfl

theorem decryptNonce_header (h : Mirrored s r) (nonceBehind : UInt8) :
    decryptNonce r (gcmpHeader (encryptNonce m s) nonceBehind) = encryptNonce m s := by
  have hbyte : ∀ i, (encryptNonce m s).toList.getD (7 + i) 0 =
      [m.shift32 s.frameCounter, (s.frameCounter >>> 24).toUInt8, (s.frameCounter >>> 16).toUInt8,
        (s.frameCounter >>> 8).toUInt8, s.frameCounter.toUInt8].getD i 0 := by
    intro i
    have hlen : (0 :: s.apBssid.toList).length = 7 := by rw [List.length_cons, Vector.length_toList]
    rw [toList_encryptNonce, List.getD_append_right _ _ _ _ (by omega), hlen, Nat.add_sub_cancel_left]
  have h7 := hbyte 0
  have h8 := hbyte 1
  have h9 := hbyte 2
  have h10 := hbyte 3
  have h11 := hbyte 4
  simp only [Nat.reduceAdd, List.getD_cons_zero, List.getD_cons_succ] at h7 h8 h9 h10 h11
  simp only [decryptNonce, gcmpHeader, List.getD_cons_zero, List.getD_cons_succ, h7, h8, h9, h10, h11, h.clientMac]
  rfl

theorem decryptFrame_sent (h : Mirrored s r) (hfit : gcmpAad.length + plaintext.length ≤ 4064)
    (nonceBehind : UInt8) (tag : Block) (frame' : Nat → UInt8) (out : List UInt8) :
    wpa3SaeDecryptFrame m frame' r (some (gcmpHeader (encryptNonce m s) nonceBehind ++
        aes256Ctr (tkContext m s) (encryptNonce m s) plaintext ++ tag.toList)) out =
      if tag = messageTag frame' (tkContext m s) (encryptNonce m s) gcmpAad
          (aes256Ctr (tkContext m s) (encryptNonce m s) plaintext) then
        some (.ok, plaintext ++ out.drop plaintext.length) else some (.ok, out) := by
  have hheader : (gcmpHeader (encryptNonce m s) nonceBehind).length = 8 := rfl
  have haad : gcmpAad.length = 4 := rfl
  have hct : (aes256Ctr (tkContext m s) (encryptNonce m s) plaintext).length = plaintext.length :=
    length_aes256Ctr _ _ (by omega)
  have hkey : tkContext m r = tkContext m s := by rw [tkContext, tkContext, h.tk]
  rw [decryptFrame_status h.receiver _ _ (by
    rw [List.length_append, List.length_append, hheader, Vector.length_toList]
    omega), openFrame_append hheader (by rw [hct]; exact hfit), decryptNonce_header h, hkey]
  split
  · rw [Option.map_some, aes256Ctr_involutive _ _ (by omega), hct]
  · rfl

theorem frame_roundTrips_iff (h : Mirrored s r) (plaintext : List UInt8) : RoundTrips m s r plaintext ↔
      gcmpAad.length + plaintext.length ≤ 4064 ∧
        (plaintext = [] ∨ shiftRight^[128] (hashKey (tkContext m s)) = zeroBlock) := by
  constructor
  · intro hround
    have hfit : gcmpAad.length + plaintext.length ≤ 4064 := by
      by_contra hlong
      obtain ⟨s', encrypted, henc, -⟩ := hround 0 (fun _ => 0) (fun _ => 0) []
      rw [encryptFrame_eq_none h.sender (Nat.lt_of_not_le hlong)] at henc
      cases henc
    refine ⟨hfit, ?_⟩
    rcases plaintext with _ | ⟨x, plaintext⟩
    · exact Or.inl rfl
    · refine Or.inr (by_contra fun hkey => ?_)
      have haad : gcmpAad.length = 4 := rfl
      have hct : (aes256Ctr (tkContext m s) (encryptNonce m s) (x :: plaintext)).length = (x :: plaintext).length :=
        length_aes256Ctr _ _ (by omega)
      -- four bytes of additional data leave a gap
      obtain ⟨k, hk⟩ := exists_gap (a := gcmpAad.length)
        (n := (aes256Ctr (tkContext m s) (encryptNonce m s) (x :: plaintext)).length)
        (by rw [haad]; omega)
      have hne : messageTag (fun i => if i = 16 * k + 15 then 0x80 else 0) (tkContext m s) (encryptNonce m s)
          gcmpAad (aes256Ctr (tkContext m s) (encryptNonce m s) (x :: plaintext)) ≠
          messageTag (fun _ => 0) (tkContext m s) (encryptNonce m s) gcmpAad
            (aes256Ctr (tkContext m s) (encryptNonce m s) (x :: plaintext)) := messageTag_ne_of_gap hk hkey
      obtain ⟨s', encrypted, henc, hdec⟩ := hround 0 (fun i => if i = 16 * k + 15 then 0x80 else 0) (fun _ => 0)
        []
      rw [encryptFrame_eq h.sender hfit] at henc
      obtain rfl := congrArg (fun f => f.2.2) (Option.some.inj henc)
      rw [decryptFrame_sent h hfit, if_neg hne] at hdec
      have := congrArg Prod.snd (Option.some.inj hdec)
      simp at this
  · rintro ⟨hfit, hcase⟩ nonceBehind frame frame' out
    refine ⟨_, _, encryptFrame_eq h.sender hfit frame nonceBehind, ?_⟩
    rw [decryptFrame_sent h hfit]
    rcases hcase with rfl | hkey
    · split
      · rfl
      · rfl
    · obtain ⟨ciphertext, tag, hauth⟩ :=
        (gcm_roundTrip_iff (tkContext m s) (encryptNonce m s) plaintext gcmpAad).mpr ⟨hfit, Or.inr hkey⟩
      have htag : ∀ frame, messageTag frame (tkContext m s) (encryptNonce m s) gcmpAad
          (aes256Ctr (tkContext m s) (encryptNonce m s) plaintext) = tag := fun frame => by
        have henc := hauth.encrypts frame
        rw [gcmEncrypt_eq hfit] at henc
        exact congrArg Prod.snd (Option.some.inj henc)
      rw [if_pos ((htag frame).trans (htag frame').symm)]

end Frames

/-- Under every key, for every plaintext and every counter: a frame whose tag the cipher refuses is `SEC_OK`,
and a frame that is made at all has the byte behind the nonce in it. -/
theorem gcmpFrames_not_protected (m : GcmpMemory) {s r : SaeState} (h : Mirrored s r) (plaintext : List UInt8) :
    ¬ OnlyAccepted m r ∧ ¬ (RoundTrips m s r plaintext ∧ NonceInside m s plaintext) := by
  refine ⟨not_onlyAccepted h.receiver, ?_⟩
  rintro ⟨hround, hinside⟩
  exact not_nonceInside h.sender ((frame_roundTrips_iff h plaintext).mp hround).1 hinside

/-- A machine whose memory is zero and whose shift gives zero. -/
def zeroMemory : GcmpMemory := { behind := fun _ => 0, stale := Vector.replicate 240 0, shift32 := fun _ => 0 }

/-- An access point and a station with the keys installed. -/
def keyedSender : SaeState :=
  { zeroSae with apBssid := Vector.replicate 6 2, clientMac := Vector.replicate 6 1, installed := 1 }
def keyedReceiver : SaeState :=
  { zeroSae with apBssid := Vector.replicate 6 1, clientMac := Vector.replicate 6 2, installed := 1 }

theorem keyed_mirrored : Mirrored keyedSender keyedReceiver := ⟨by decide, by decide, rfl, rfl, rfl⟩

/-- One byte: the frame has a byte of the stack in it. -/
theorem oneByteFrame_outside : ¬ NonceInside zeroMemory keyedSender [0x41] ∧ ¬ OnlyAccepted zeroMemory keyedReceiver :=
  ⟨not_nonceInside (by decide) (by decide), not_onlyAccepted (by decide)⟩

theorem oneByteGcmp_not_protected : ¬ OnlyAccepted zeroMemory keyedReceiver ∧
      ¬ (RoundTrips zeroMemory keyedSender keyedReceiver [0x41] ∧ NonceInside zeroMemory keyedSender [0x41]) :=
  gcmpFrames_not_protected zeroMemory keyed_mirrored [0x41]

end Chicago95.Stage2.Sae
