/-
# Packets (`encrypt_package.h`, `replica_context.h`)

A packet is the IV, the cipher text and the tag, in this order: `MetaDataSize` bytes more than the
message.  `encrypt` has the 16 bytes of `get_packet_iv` written at the front, four more than the
IV takes, and writes the cipher text over the last four; the tag follows at the end of the
message's size.  `decrypt` gets the packet's size and finds the same three places from it.

Two numbers are wrong at the ends (`undoes_iff`).  `get_message_size` asserts that a packet is
LARGER than `MetaDataSize`, so the packet of an empty message, which `encrypt` makes, is refused.
And the size goes to EVP as an `int`: from 2 ^ 31 bytes on the call fails, or it handles the low
32 bits of the size only.
-/
import Avocado.Crypt.Gcm
import Avocado.Crypt.KeyIV

namespace Avocado

open Bytes

/-! ## 1. The IV block and the sizes -/

/-- The 16 bytes in memory. -/
def Block.bytes (b : Block) : List UInt8 :=
  leBytes 8 b.low.toNat ++ leBytes 4 b.high.toNat ++ leBytes 4 b.pad.toNat

theorem Block.length_bytes (b : Block) : b.bytes.length = 16 := by
  simp only [Block.bytes, List.length_append, length_leBytes]

/-- The 12 bytes that stay in the packet. -/
theorem Block.length_iv (b : Block) : (b.bytes.take ivSize).length = ivSize := by
  rw [List.length_take, b.length_bytes]
  rfl

theorem Block.load_iv (b : Block) (rest : List UInt8) :
    load (b.bytes.take ivSize ++ rest) 0 ivSize = some (b.bytes.take ivSize) := by
  have h := load_front (b.bytes.take ivSize) rest
  rwa [b.length_iv] at h

namespace PacketSsl

/-- `PacketSsl::MetaDataSize`. -/
def metaDataSize : Nat := ivSize + macSize

/-- `PacketSsl::get_buffer_size`, a `size_t`. -/
def getBufferSize (msgSz : Nat) : Nat := (msgSz + metaDataSize) % 2 ^ 64

/-- `PacketSsl::get_message_size`; `none` when the assertion fails. -/
def getMessageSize (bufSz : Nat) : Option Nat :=
  if bufSz > metaDataSize then some (bufSz - metaDataSize) else none

theorem getBufferSize_of_lt {n : Nat} (h : n + 28 < 2 ^ 64) : getBufferSize n = n + 28 :=
  Nat.mod_eq_of_lt h

theorem getMessageSize_eq_some {bufSz k : Nat} :
    getMessageSize bufSz = some k ↔ 0 < k ∧ bufSz = k + 28 := by
  have hmeta : metaDataSize = 28 := rfl
  unfold getMessageSize
  rw [hmeta]
  split
  · rw [Option.some.injEq]
    omega
  · simp only [reduceCtorEq, false_iff]
    omega

/-- The message size of a buffer is right when it is anything, and it is something unless the
message is empty or the buffer size wraps around. -/
theorem getMessageSize_getBufferSize {n k : Nat} (hn : n < 2 ^ 64) :
    getMessageSize (getBufferSize n) = some k ↔ k = n ∧ 0 < n ∧ n + 28 < 2 ^ 64 := by
  have hsize : getBufferSize n = (n + 28) % 2 ^ 64 := rfl
  rw [getMessageSize_eq_some, hsize]
  omega

/-! ## 2. The two directions of `cipher` -/

/-- `PacketSsl::encrypt`: its result, and `dst` afterwards.  `iv` is what `get_packet_iv` writes to
its destination.  `none` when an access leaves `dst` or `src`. -/
def encrypt (gcm : Gcm) (iv : Block) (dst src : List UInt8) (size : Nat) :
    Option (Bool × List UInt8) := do
  let dst ← store dst 0 iv.bytes
  match evpLen size with
  | none => some (false, dst)
  | some inl =>
    let text ← load src 0 inl
    let iv ← load dst 0 ivSize
    let (text, tag) := gcm.encrypt iv text
    let dst ← store dst ivSize text
    let dst ← store dst (ivSize + size) tag
    some (true, dst)

/-- `PacketSsl::decrypt`: its result, and `dst` afterwards.  The text is in `dst` before the tag is
looked at. -/
def decrypt (gcm : Gcm) (dst src : List UInt8) (size : Nat) : Option (Bool × List UInt8) := do
  let size ← getMessageSize size
  let iv ← load src 0 ivSize
  match evpLen size with
  | none => some (false, dst)
  | some inl =>
    let text ← load src ivSize inl
    let dst ← store dst 0 (gcm.decryptUpdate iv text)
    let tag ← load src (ivSize + size) macSize
    some (gcm.decryptFinal iv text tag, dst)

/-- `ReplicaContext::fill_req_buffers`; `bufs` are the request buffers of the nodes.  The message
is encrypted once, for `nodes[0]`, and that packet is copied to the others.  What `encrypt` returns
is not looked at. -/
def fillReqBuffers (gcm : Gcm) (iv : Block) (bufs : List (List UInt8)) (buf : List UInt8)
    (size : Nat) : Option (List (List UInt8)) :=
  match bufs with
  | [] => none
  | first :: rest => do
    let (_, first) ← encrypt gcm iv first buf size
    let packet ← load first 0 (getBufferSize size)
    let rest ← rest.mapM fun req => store req 0 packet
    some (first :: rest)

/-! ## 3. What the two directions do -/

/-- The packet of a message. -/
def packet (gcm : Gcm) (iv : Block) (m : List UInt8) : List UInt8 :=
  iv.bytes.take ivSize ++ (gcm.encrypt (iv.bytes.take ivSize) m).1 ++
    (gcm.encrypt (iv.bytes.take ivSize) m).2

variable {gcm : Gcm} {iv : Block} {m buf out : List UInt8}

theorem length_packet (iv : Block) (m : List UInt8) (hg : gcm.Lawful) :
    (packet gcm iv m).length = m.length + 28 := by
  simp only [packet, List.length_append, List.length_take, iv.length_bytes, hg.length_encrypt,
    hg.length_tag, ivSize, macSize]
  omega

/-- **`encrypt` makes the packet**, over whatever the buffer held. -/
theorem encrypt_eq (hg : gcm.Lawful) (hm : m.length < 2 ^ 31) (hbuf : buf.length = m.length + 28) :
    encrypt gcm iv buf m m.length = some (true, packet gcm iv m) := by
  have hct := hg.length_encrypt (iv.bytes.take ivSize) m
  have htag := hg.length_tag (iv.bytes.take ivSize) m
  have h16 := iv.length_bytes
  have hiv := iv.length_iv
  -- the 16 bytes at the front
  have h0 : store buf 0 iv.bytes = some (iv.bytes ++ buf.drop 16) := by
    rw [store, if_pos (by omega), h16]
    rfl
  -- they are the IV and four bytes that the cipher text is written over
  obtain ⟨x, y, hsplit, hx, hy⟩ : ∃ x y, iv.bytes ++ buf.drop 16 = iv.bytes.take ivSize ++ x ++ y ∧
      x.length = m.length ∧ y.length = macSize := by
    refine ⟨(iv.bytes.drop ivSize ++ buf.drop 16).take m.length,
      (iv.bytes.drop ivSize ++ buf.drop 16).drop m.length, ?_, ?_, ?_⟩
    · rw [List.append_assoc, List.take_append_drop, ← List.append_assoc, List.take_append_drop]
    all_goals
      simp only [List.length_take, List.length_drop, List.length_append, h16, hbuf, ivSize, macSize]
      omega
  have hsrc : load m 0 m.length = some m := load_whole m
  have hload : load (iv.bytes.take ivSize ++ x ++ y) 0 ivSize = some (iv.bytes.take ivSize) := by
    rw [List.append_assoc]
    exact iv.load_iv _
  have htext : store (iv.bytes.take ivSize ++ x ++ y) ivSize
      (gcm.encrypt (iv.bytes.take ivSize) m).1 =
        some (iv.bytes.take ivSize ++ (gcm.encrypt (iv.bytes.take ivSize) m).1 ++ y) :=
    store_middle hiv.symm (hct.trans hx.symm)
  have hmac : store (iv.bytes.take ivSize ++ (gcm.encrypt (iv.bytes.take ivSize) m).1 ++ y)
      (ivSize + m.length) (gcm.encrypt (iv.bytes.take ivSize) m).2 = some (packet gcm iv m) := by
    have h := store_middle (c := [])
      (a := iv.bytes.take ivSize ++ (gcm.encrypt (iv.bytes.take ivSize) m).1)
      (by rw [List.length_append, hiv, hct]) (htag.trans hy.symm)
    rwa [List.append_nil, List.append_nil] at h
  simp only [encrypt, h0, hsplit, evpLen_of_lt hm, hsrc, hload, htext, hmac, Option.bind_eq_bind,
    Option.bind_some]

/-- **`decrypt` finds the message in it.** -/
theorem decrypt_packet (hg : gcm.Lawful) (h0 : 0 < m.length) (hm : m.length < 2 ^ 31)
    (hout : out.length = m.length) :
    decrypt gcm out (packet gcm iv m) (m.length + 28) = some (true, m) := by
  have hct := hg.length_encrypt (iv.bytes.take ivSize) m
  have htag := hg.length_tag (iv.bytes.take ivSize) m
  have hiv := iv.length_iv
  have hsize : getMessageSize (m.length + 28) = some m.length :=
    getMessageSize_eq_some.mpr ⟨h0, rfl⟩
  have hload : load (packet gcm iv m) 0 ivSize = some (iv.bytes.take ivSize) := by
    rw [packet, List.append_assoc]
    exact iv.load_iv _
  have htext : load (packet gcm iv m) ivSize m.length =
      some (gcm.encrypt (iv.bytes.take ivSize) m).1 :=
    load_middle hiv.symm hct.symm
  have hmac : load (packet gcm iv m) (ivSize + m.length) macSize =
      some (gcm.encrypt (iv.bytes.take ivSize) m).2 := by
    have h := load_middle (c := [])
      (a := iv.bytes.take ivSize ++ (gcm.encrypt (iv.bytes.take ivSize) m).1)
      (by rw [List.length_append, hiv, hct]) htag.symm
    rwa [List.append_nil] at h
  have hstore : store out 0 m = some m := store_whole hout
  simp only [decrypt, hsize, hload, evpLen_of_lt hm, htext, hg.update_encrypt, hstore, hmac,
    hg.final_encrypt, Option.bind_eq_bind, Option.bind_some]

/-- **What a successful `decrypt` has written**: as many bytes as EVP was asked for, and what is
behind them is untouched. -/
theorem decrypt_spec {src res : List UInt8} {size : Nat}
    (h : decrypt gcm out src size = some (true, res)) (hg : gcm.Lawful) :
    ∃ n inl, getMessageSize size = some n ∧ evpLen n = some inl ∧ res.drop inl = out.drop inl := by
  simp only [decrypt, Option.bind_eq_bind, Option.bind_eq_some_iff] at h
  obtain ⟨n, hn, iv', -, h⟩ := h
  split at h
  · injection h with h
    exact absurd (congrArg Prod.fst h) (by simp)
  · rename_i inl hinl
    simp only [Option.bind_eq_some_iff, Option.some.injEq, Prod.mk.injEq] at h
    obtain ⟨text, htext, dst, hdst, tag, -, -, rfl⟩ := h
    refine ⟨n, inl, hn, hinl, ?_⟩
    have hlen : (gcm.decryptUpdate iv' text).length = inl :=
      (hg.length_update _ _).trans (load_length htext)
    unfold store at hdst
    split at hdst
    · injection hdst with hdst
      subst hdst
      rw [List.take_zero, List.nil_append, Nat.zero_add, ← hlen, List.drop_left]
    · exact absurd hdst (by simp)

/-! ## 4. When decryption undoes encryption -/

/-- `encrypt` into a buffer of `get_buffer_size` bytes stays inside it, and `decrypt` of the whole
buffer returns true and the message, whatever the two buffers held. -/
def RoundTrips (gcm : Gcm) (iv : Block) (m : List UInt8) : Prop :=
  ∀ buf out : List UInt8, buf.length = getBufferSize m.length → out.length = m.length →
    ∃ ok buf', encrypt gcm iv buf m m.length = some (ok, buf') ∧
      decrypt gcm out buf' (getBufferSize m.length) = some (true, m)

/-- `decrypt` does so for every buffer that `fill_req_buffers` fills. -/
def CopiesRoundTrip (gcm : Gcm) (iv : Block) (m : List UInt8) : Prop :=
  ∀ bufs : List (List UInt8), bufs ≠ [] → (∀ buf ∈ bufs, buf.length = getBufferSize m.length) →
    ∃ bufs', fillReqBuffers gcm iv bufs m m.length = some bufs' ∧ bufs'.length = bufs.length ∧
      ∀ buf ∈ bufs', ∀ out : List UInt8, out.length = m.length →
        decrypt gcm out buf (getBufferSize m.length) = some (true, m)

theorem CopiesRoundTrip.roundTrips (h : CopiesRoundTrip gcm iv m) : RoundTrips gcm iv m := by
  intro buf out hbuf hout
  obtain ⟨bufs', hfill, -, hall⟩ := h [buf] (by simp) (by simpa using hbuf)
  simp only [fillReqBuffers, List.mapM_nil, Option.bind_eq_bind, Option.bind_eq_some_iff,
    Option.pure_def, Option.some.injEq] at hfill
  obtain ⟨⟨ok, buf'⟩, henc, pkt, -, rest, rfl, rfl⟩ := hfill
  exact ⟨ok, buf', henc, hall buf' List.mem_cons_self out hout⟩

theorem mapM_store_whole (bs : List UInt8) :
    ∀ bufs : List (List UInt8), (∀ buf ∈ bufs, buf.length = bs.length) →
      (bufs.mapM fun buf => store buf 0 bs) = some (bufs.map fun _ => bs)
  | [], _ => rfl
  | buf :: bufs, h => by
    have hstore : store buf 0 bs = some bs := store_whole (h buf List.mem_cons_self)
    have htail := mapM_store_whole bs bufs fun b hb => h b (List.mem_cons_of_mem _ hb)
    rw [List.mapM_cons, hstore, htail]
    rfl

/-- **The sizes are enough**: below 2 ^ 31 bytes, and not empty. -/
theorem copiesRoundTrip_of_size (hg : gcm.Lawful) (h0 : 0 < m.length) (hm : m.length < 2 ^ 31) :
    CopiesRoundTrip gcm iv m := by
  have hsize : getBufferSize m.length = m.length + 28 := getBufferSize_of_lt (by omega)
  have hpkt := length_packet iv m hg
  intro bufs hne hall
  obtain ⟨first, rest, rfl⟩ := List.exists_cons_of_ne_nil hne
  rw [hsize] at hall
  have hload : load (packet gcm iv m) 0 (m.length + 28) = some (packet gcm iv m) := by
    rw [← hpkt]
    exact load_whole _
  have hrest := mapM_store_whole (packet gcm iv m) rest fun buf hbuf =>
    (hall buf (List.mem_cons_of_mem _ hbuf)).trans hpkt.symm
  refine ⟨packet gcm iv m :: rest.map fun _ => packet gcm iv m, ?_, by simp, ?_⟩
  · simp only [fillReqBuffers, encrypt_eq hg hm (hall first List.mem_cons_self), hsize, hload, hrest,
      Option.bind_eq_bind, Option.bind_some]
  · intro buf hbuf out hout
    have heq : buf = packet gcm iv m := by
      rcases List.mem_cons.mp hbuf with rfl | hbuf
      · rfl
      · obtain ⟨_, -, rfl⟩ := List.mem_map.mp hbuf
        rfl
    rw [heq, hsize]
    exact decrypt_packet hg h0 hm hout

/-- **They are needed**: an output buffer that differs from the message everywhere shows how much
of it was written. -/
theorem RoundTrips.size (hg : gcm.Lawful) (hlen : m.length < 2 ^ 64) (h : RoundTrips gcm iv m) :
    0 < m.length ∧ m.length < 2 ^ 31 := by
  obtain ⟨ok, buf', -, hdec⟩ := h (List.replicate (getBufferSize m.length) 0) (m.map (· + 1))
    (by simp) (by simp)
  obtain ⟨n, inl, hn, hinl, hdrop⟩ := decrypt_spec hdec hg
  obtain ⟨rfl, hpos, -⟩ := (getMessageSize_getBufferSize hlen).mp hn
  obtain ⟨hlt, -⟩ := evpLen_eq_some hinl
  refine ⟨hpos, ?_⟩
  have hnil : m.drop inl = [] := by
    rw [← List.map_drop] at hdrop
    cases hrest : m.drop inl with
    | nil => rfl
    | cons b bs =>
      rw [hrest, List.map_cons, List.cons.injEq] at hdrop
      have hb := congrArg UInt8.toNat hdrop.1
      have hlt := b.toNat_lt
      rw [UInt8.toNat_add] at hb
      have h1 : (1 : UInt8).toNat = 1 := rfl
      omega
  have hle : m.length ≤ inl := List.drop_eq_nil_iff.mp hnil
  omega

/-- **When packet decryption undoes encryption**: the sizes agree unless the message is empty or
the buffer size wraps around; the packet, and every copy of it, decrypts to the message if and only
if the message is not empty and has less than 2 ^ 31 bytes. -/
theorem undoes_iff (hg : gcm.Lawful) (iv : Block) (hlen : m.length < 2 ^ 64) :
    (getMessageSize (getBufferSize m.length) = some m.length ↔
      0 < m.length ∧ m.length + 28 < 2 ^ 64) ∧
    (RoundTrips gcm iv m ↔ 0 < m.length ∧ m.length < 2 ^ 31) ∧
    (CopiesRoundTrip gcm iv m ↔ 0 < m.length ∧ m.length < 2 ^ 31) := by
  have hcopies : 0 < m.length ∧ m.length < 2 ^ 31 → CopiesRoundTrip gcm iv m :=
    fun h => copiesRoundTrip_of_size hg h.1 h.2
  refine ⟨?_, ?_, ?_⟩
  · rw [getMessageSize_getBufferSize hlen]
    exact and_iff_right rfl
  · exact ⟨fun h => h.size hg hlen, fun h => (hcopies h).roundTrips⟩
  · exact ⟨fun h => h.roundTrips.size hg hlen, hcopies⟩

/-! ## 5. The message of `package_test.cpp` -/

/-- "Hello World! How are you?" and its terminating zero. -/
def packageMsg : List UInt8 :=
  [72, 101, 108, 108, 111, 32, 87, 111, 114, 108, 100, 33, 32, 72, 111, 119, 32, 97, 114, 101, 32,
    121, 111, 117, 63, 0]

/-- The IV 00 01 .. 0b; the test takes it from the same bytes as the key. -/
def packageIv : Block := ⟨0x0706050403020100, 0x0b0a0908, 0⟩

/-- AES-128-GCM under the key 00 01 .. 0f and that IV: the first two blocks of the key stream, and
the tags of the empty message and of the test's. -/
def packageGcm : Gcm :=
  Gcm.counterMode
    (fun _ i => [147, 108, 167, 206, 102, 27, 247, 84, 75, 210, 97, 138, 54, 163, 112, 8, 179, 38, 26,
      230, 83, 237, 253, 246, 230, 33, 241, 45, 20, 68, 162, 108].getD i 0)
    (fun _ text =>
      if text = packageMsg then
        [211, 229, 152, 11, 176, 179, 139, 220, 156, 196, 84, 206, 123, 81, 157, 49]
      else [67, 91, 155, 161, 45, 117, 164, 190, 138, 151, 126, 163, 205, 1, 24, 144])

theorem packageGcm_lawful : packageGcm.Lawful :=
  Gcm.counterMode_lawful fun _ text => by split <;> rfl

theorem undoes_iff_package :
    (getMessageSize (getBufferSize packageMsg.length) = some packageMsg.length ↔
      0 < packageMsg.length ∧ packageMsg.length + 28 < 2 ^ 64) ∧
    (RoundTrips packageGcm packageIv packageMsg ↔
      0 < packageMsg.length ∧ packageMsg.length < 2 ^ 31) ∧
    (CopiesRoundTrip packageGcm packageIv packageMsg ↔
      0 < packageMsg.length ∧ packageMsg.length < 2 ^ 31) :=
  undoes_iff packageGcm_lawful packageIv (by decide)

/-- **The empty message.**  `encrypt` makes its packet of 28 bytes, and `decrypt` of the packet, in
fact `get_message_size` of its size, fails an assertion. -/
theorem not_roundTrips_empty :
    encrypt packageGcm packageIv (List.replicate 28 0) [] 0 =
        some (true, packet packageGcm packageIv []) ∧
      getMessageSize (getBufferSize 0) = none ∧
      decrypt packageGcm [] (packet packageGcm packageIv []) (getBufferSize 0) = none ∧
      ¬ RoundTrips packageGcm packageIv [] := by
  have henc : encrypt packageGcm packageIv (List.replicate 28 0) [] 0 =
      some (true, packet packageGcm packageIv []) := by decide
  have hdec : decrypt packageGcm [] (packet packageGcm packageIv []) (getBufferSize 0) = none := rfl
  refine ⟨henc, rfl, hdec, ?_⟩
  intro h
  obtain ⟨ok, buf', h, hm⟩ := h (List.replicate 28 0) [] rfl rfl
  rw [List.length_nil, henc] at h
  obtain ⟨-, rfl⟩ : true = ok ∧ packet packageGcm packageIv [] = buf' := by simpa using h
  exact absurd (hdec.symm.trans hm) (by simp)

end PacketSsl

end Avocado
