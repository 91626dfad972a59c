/-
# What is read of received bytes

The size of a packet says how long its message is, and the two numbers at the front of a message say
how long its key and its value are.  Nothing compares any of them with another: `get_message_size`
subtracts from the size of the packet, and the rest is read where the two numbers say.  `handles` is
what each handler and continuation computes and reads, and `Fits` is when all that is read is inside
the message (`inside_iff`): the length of the message, `key_size` and `size` decide.

`GetTime` is the only one that refuses a message, one with `size < 8`, and it is the key that has
to hold a clock.  The callbacks for commands compare the key with a short text, which stops at the
first difference whatever `key_size` is.
-/
import Avocado.Abd.ReadResult
import Avocado.Abd.Unauthenticated
import Avocado.Abd.AnswerSize

namespace Avocado

open Bytes PacketSsl

/-! ## 1. What is read -/

/-- Who gets a packet: a handler, which has the callback of `run_event_loop` for a command, the
lambda of `GetTime`, the lambda of `RetValue` with what it has so far, or the callback of `CmdRet`.
For `AckPutTime` and `RetGetPutUpdate` a response is put into the cache, and not read. -/
inductive Consumer
  | request (type : ReqType)
  | getTime
  | retValue (key : List UInt8) (st : ReadState)
  | cmdRet
  | ack

/-- The bytes that `get_idx` loads. -/
def idxBytes (key : Span) : Option (List UInt8) :=
  if key.size ≥ 8 then key.buf.read (key.size - 8) 8
  else if key.size ≥ 4 then key.buf.read (key.size - 4) 4
  else if key.size ≥ 2 then key.buf.read (key.size - 2) 2
  else key.buf.read 0 1

/-- The bytes that `send_and_encrypt_msg` encrypts: `adjust_size(get_size())` of them, computed in
a `size_t`. -/
def sentBytes (data : Msg) : Option (List UInt8) := do
  let size ← data.getSize
  load data.ptr 0 (adjustSize size % 2 ^ 64)

/-- `req_handlers<Put>`: the node, the replicas of the key, and the request to them. -/
def readsPut (data : Msg) : Option Unit := do
  let key ← data.getKey
  let value ← data.getValue
  let _ ← createNode key value Lamport.min
  let _ ← idxBytes key
  let _ ← sentBytes data
  some ()

/-- `req_handlers<Get>`. -/
def readsGet (data : Msg) : Option Unit := do
  let key ← data.getKey
  let _ ← createNode key ⟨0, none⟩ Lamport.min
  let _ ← idxBytes key
  let _ ← sentBytes data
  some ()

/-- `RetValue`: its lambda, and the span that a greater clock leaves. -/
def readsRetValue (key : List UInt8) (st : ReadState) (data : Msg) : Option Unit := do
  let st' ← pickMax (KeyAccess.addMetaSize key.length) st data
  let clock ← respClock (KeyAccess.addMetaSize key.length) data
  if clock > st.max.1 then do
    let _ ← st'.max.2.bytes
    some ()
  else some ()

/-- `"ACK"`. -/
def ackText : CString := ⟨[65, 67, 75], by decide⟩

/-- What the callback `cmd_ret` that `run_event_loop` installs compares its message with. -/
def isAck (msg : Msg) : Option Bool := keyIs ackText msg

/-- Everything that is read of the array; `none` is a read that leaves it, or a size below zero. -/
def Consumer.reads : Consumer → Msg → Option Unit
  | .request .put, data => readsPut data
  | .request .get, data => readsGet data
  | .request .getTimeStamp, data => (requestKey data).map fun _ => ()
  | .request .putReplica, data => (replicaEntry data).map fun _ => ()
  | .request .getValueTimeStamp, data => (requestKey data).map fun _ => ()
  | .request .cmd, data => (isDone data).map fun _ => ()
  | .getTime, data => (maxCount 0 data).map fun _ => ()
  | .retValue key st, data => readsRetValue key st data
  | .cmdRet, data => (isAck data).map fun _ => ()
  | .ack, _ => some ()

/-- A packet and the array that its message is decrypted into: `get_data` and `add_to_cache` ask
`get_message_size` for the length. -/
structure Received where
  /-- `get_data_size()`. -/
  size : Nat
  msg : Msg
  length : ∀ k, getMessageSize size = some k → msg.ptr.length = k

namespace Msg

/-- The first number of the header. -/
def keySizeField (m : Msg) : Nat := leNat (m.ptr.take 8)

/-- The second number of the header. -/
def sizeField (m : Msg) : Nat := leNat ((m.ptr.drop 8).take 8)

end Msg

/-- The key size is there, and the key too, unless what there is of it differs from the text. -/
def TextFits (text : CString) (m : Msg) : Prop :=
  8 ≤ m.ptr.length ∧
    (m.keySizeField ≤ m.ptr.length - 16 ∨ ¬ m.ptr.drop encodedMsgSize <+: text.chars)

/-- The condition on the length, `key_size` and `size`. -/
def Consumer.Fits (m : Msg) : Consumer → Prop
  | .request .put => 16 + m.keySizeField ≤ m.ptr.length ∧ 16 + m.sizeField ≤ m.ptr.length ∧
      (m.keySizeField = 0 → 17 ≤ m.ptr.length)
  | .request .get => 16 + m.keySizeField ≤ m.ptr.length ∧
      (16 + m.sizeField) % 2 ^ 64 ≤ m.ptr.length ∧ (m.keySizeField = 0 → 17 ≤ m.ptr.length)
  | .request .putReplica => 8 ≤ m.keySizeField ∧ 16 + m.keySizeField ≤ m.ptr.length ∧
      (m.keySizeField < m.sizeField → 16 + m.sizeField ≤ m.ptr.length)
  | .request .getTimeStamp | .request .getValueTimeStamp =>
      8 ≤ m.ptr.length ∧ m.keySizeField ≤ m.ptr.length - 16
  | .request .cmd => TextFits doneText m
  | .cmdRet => TextFits ackText m
  | .ack => True
  | .getTime => 16 ≤ m.ptr.length ∧
      (8 ≤ m.sizeField → 8 ≤ m.keySizeField ∧ 16 + m.keySizeField ≤ m.ptr.length)
  | .retValue key st => 24 + key.length ≤ m.ptr.length ∧
      (Lamport.ofBytes ((m.ptr.drop (16 + key.length)).take 8) > st.max.1 →
        m.sizeField ≤ m.ptr.length ∧ m.sizeField ≤ st.tmp.ptr.length ∧ 8 ≤ st.tmp.ptr.length ∧
        leNat ((m.ptr.take m.sizeField ++ st.tmp.ptr.drop m.sizeField).take 8) ≤
          st.tmp.ptr.length - 16)

/-! ## 3. The accessors on any array -/

section Accessors

variable {m : Msg} {key : Span} {n : Nat}

/-- Two reads, one after the other. -/
theorem isSome_bind {α β : Type} {x : Option α} {f : α → Option β} {P : Prop}
    (h : ∀ a, (f a).isSome ↔ P) : (x.bind f).isSome ↔ x.isSome ∧ P := by
  cases x with
  | none => simp
  | some a => simp [h]

theorem isSome_seq {α β : Type} {x : Option α} {y : Option β} :
    (x.bind fun _ => y).isSome ↔ x.isSome ∧ y.isSome :=
  isSome_bind fun _ => Iff.rfl

theorem getKeySize_eq : m.getKeySize = if 8 ≤ m.ptr.length then some m.keySizeField else none := by
  unfold Msg.getKeySize load Msg.keySizeField
  rw [Nat.zero_add, List.drop_zero]
  split
  · rfl
  · rfl

theorem getSize_eq : m.getSize = if 16 ≤ m.ptr.length then some m.sizeField else none := by
  unfold Msg.getSize load Msg.sizeField
  split
  · rfl
  · rfl

theorem getKey_eq : m.getKey = if 8 ≤ m.ptr.length then
    some ⟨m.keySizeField, some (m.ptr.drop encodedMsgSize)⟩ else none := by
  simp only [Msg.getKey, getKeySize_eq, Option.bind_eq_bind]
  split
  · rfl
  · rfl

/-- The value's range, when the header is there. -/
theorem getValue_eq (h : 16 ≤ m.ptr.length) : m.getValue =
    some (if m.sizeField > m.keySizeField then ⟨m.sizeField - m.keySizeField,
      some ((m.ptr.drop encodedMsgSize).drop m.keySizeField)⟩ else ⟨0, none⟩) := by
  simp only [Msg.getValue, getSize_eq, getKeySize_eq, if_pos h,
    if_pos (show 8 ≤ m.ptr.length by omega), Option.bind_eq_bind, Option.bind_some]
  split
  · rfl
  · rfl

/-- The bytes of the key range. -/
theorem keyBytes_isSome :
    (Span.bytes ⟨n, some (m.ptr.drop encodedMsgSize)⟩).isSome ↔ n ≤ m.ptr.length - 16 := by
  rw [Span.bytes, Ptr.read, load_isSome_iff, List.length_drop, encodedMsgSize, Nat.zero_add]

/-- The bytes of the value range. -/
theorem valueBytes_isSome (h : 16 + m.keySizeField ≤ m.ptr.length) :
    (Span.bytes (if m.sizeField > m.keySizeField then ⟨m.sizeField - m.keySizeField,
      some ((m.ptr.drop encodedMsgSize).drop m.keySizeField)⟩ else ⟨0, none⟩)).isSome ↔
      (m.keySizeField < m.sizeField → 16 + m.sizeField ≤ m.ptr.length) := by
  split
  · rename_i hgt
    simp only [Span.bytes, Ptr.read, load_isSome_iff, List.length_drop, encodedMsgSize]
    omega
  · rename_i hle
    exact ⟨fun _ hlt => absurd hlt hle, fun _ => rfl⟩

/-- `get_idx` looks at the end of the key, and at one byte of an empty key. -/
theorem idxBytes_isSome (h : n ≤ m.ptr.length - 16) :
    (idxBytes ⟨n, some (m.ptr.drop encodedMsgSize)⟩).isSome ↔ (n = 0 → 17 ≤ m.ptr.length) := by
  unfold idxBytes
  simp only
  split
  · rw [Ptr.read, load_isSome_iff, List.length_drop, encodedMsgSize]
    omega
  · split
    · rw [Ptr.read, load_isSome_iff, List.length_drop, encodedMsgSize]
      omega
    · split
      · rw [Ptr.read, load_isSome_iff, List.length_drop, encodedMsgSize]
        omega
      · rw [Ptr.read, load_isSome_iff, List.length_drop, encodedMsgSize]
        omega

theorem createNode_isSome {value : Span} {clock : Lamport} :
    (createNode key value clock).isSome ↔ key.bytes.isSome ∧ value.bytes.isSome := by
  unfold createNode
  cases key.bytes with
  | none => simp
  | some k =>
    cases value.bytes with
    | none => simp
    | some v => simp

theorem sentBytes_isSome : (sentBytes m).isSome ↔
    16 ≤ m.ptr.length ∧ (16 + m.sizeField) % 2 ^ 64 ≤ m.ptr.length := by
  rw [Nat.add_comm 16]
  simp only [sentBytes, getSize_eq, adjustSize, encodedMsgSize]
  split
  · rename_i h
    simp only [Option.bind_eq_bind, Option.bind_some, load_isSome_iff, Nat.zero_add, h, true_and]
  · rename_i h
    simp [h]

end Accessors

/-! ## 4. The consumers -/

section Consumers

variable (m : Msg)

theorem readsPut_isSome : (readsPut m).isSome ↔ Consumer.Fits m (.request .put) := by
  unfold readsPut Consumer.Fits
  by_cases h : 16 ≤ m.ptr.length
  · rw [getKey_eq, if_pos (by omega), getValue_eq h]
    simp only [Option.bind_eq_bind, Option.bind_some, isSome_seq, createNode_isSome,
      keyBytes_isSome, sentBytes_isSome, Option.isSome_some]
    have hlt := m.fits
    constructor
    · rintro ⟨⟨hk, hv⟩, hidx, ⟨-, hsent⟩, -⟩
      rw [valueBytes_isSome (by omega)] at hv
      rw [idxBytes_isSome hk] at hidx
      exact ⟨by omega, by omega, hidx⟩
    · rintro ⟨hk, hs, hidx⟩
      refine ⟨⟨by omega, (valueBytes_isSome hk).mpr fun _ => hs⟩,
        (idxBytes_isSome (by omega)).mpr hidx, ⟨h, ?_⟩, trivial⟩
      rw [Nat.mod_eq_of_lt (by omega)]
      exact hs
  · have hnone : (readsPut m).isSome = false := by
      simp only [readsPut, Msg.getValue, getSize_eq, if_neg h, getKey_eq, Option.bind_eq_bind,
        Option.bind_none]
      split
      · rfl
      · rfl
    unfold readsPut at hnone
    rw [hnone]
    constructor
    · exact fun h' => absurd h' (by simp)
    · rintro ⟨hk, -⟩
      omega

theorem readsGet_isSome : (readsGet m).isSome ↔ Consumer.Fits m (.request .get) := by
  unfold readsGet Consumer.Fits
  rw [getKey_eq]
  by_cases h : 8 ≤ m.ptr.length
  · rw [if_pos h]
    simp only [Option.bind_eq_bind, Option.bind_some, isSome_seq, createNode_isSome,
      keyBytes_isSome, sentBytes_isSome, Option.isSome_some]
    constructor
    · rintro ⟨⟨hk, -⟩, hidx, ⟨h16, hsent⟩, -⟩
      exact ⟨by omega, hsent, (idxBytes_isSome hk).mp hidx⟩
    · rintro ⟨hk, hsent, hidx⟩
      exact ⟨⟨by omega, rfl⟩, (idxBytes_isSome (by omega)).mpr hidx, ⟨by omega, hsent⟩, trivial⟩
  · rw [if_neg h]
    constructor
    · exact fun h' => absurd h' (by simp)
    · rintro ⟨hk, -⟩
      omega

end Consumers

/-- The packet of a message. -/
def Msg.received (m : Msg) : Received where
  size := m.ptr.length + 28
  msg := m
  length k h := by
    obtain ⟨-, hk⟩ := getMessageSize_eq_some.mp h
    omega

section Handlers

variable {srv : Server} {type : ReqType} {buf : MsgBuffer} {h : Handled}

/-- A handler that ran to its end has read inside the array. -/
theorem inside_of_handled (hput : type ≠ .put) (hget : type ≠ .get) (hcmd : type ≠ .cmd)
    (hh : reqHandlers srv type buf = some h) :
    ((Consumer.request type).reads buf.text).isSome := by
  cases type with
  | put => exact absurd rfl hput
  | get => exact absurd rfl hget
  | getTimeStamp =>
    obtain ⟨k, a, hk, -⟩ := handled_getTimeStamp.mp hh
    rw [Consumer.reads, hk]
    rfl
  | putReplica =>
    obtain ⟨e, a, he, -⟩ := handled_putReplica.mp hh
    rw [Consumer.reads, he]
    rfl
  | getValueTimeStamp =>
    obtain ⟨k, a, hk, -⟩ := handled_getValueTimeStamp.mp hh
    rw [Consumer.reads, hk]
    rfl
  | cmd => exact absurd rfl hcmd

/-- The callback for commands has an answer exactly when what it reads is inside. -/
theorem cmdCallback_isSome {m : Msg} :
    (cmdCallback m).isSome ↔ ((Consumer.request .cmd).reads m).isSome := by
  rw [cmdCallback, Consumer.reads, Option.isSome_map]
  cases isDone m with
  | none => rfl
  | some done =>
    obtain ⟨answer, -, hanswer, -⟩ := exists_cmdAnswer done
    simp [hanswer]

/-- And a handler whose reads are inside runs to its end, if there is memory for the answer. -/
theorem handled_of_inside (hcmd : type ≠ .cmd)
    (hfits : ∀ k, requestKey buf.text = some k → 24 + (k.length + (srv.kv.valueOf k).length) < 2 ^ 64)
    (hin : ((Consumer.request type).reads buf.text).isSome) :
    ∃ h, reqHandlers srv type buf = some h := by
  have hdata : 16 ≤ buf.text.ptr.length → getData buf = some buf.text := fun h => if_pos (by omega)
  cases type with
  | put =>
    have hfit := (readsPut_isSome _).mp hin
    simp only [Consumer.Fits] at hfit
    simp only [Consumer.reads, readsPut, Option.bind_eq_bind, Option.isSome_iff_exists,
      Option.bind_eq_some_iff] at hin
    obtain ⟨-, key, hkey, value, hvalue, node, hnode, -⟩ := hin
    refine ⟨⟨srv.kv, none, some ⟨node, .getTimeStamp, .getTime, buf.text⟩⟩, ?_⟩
    simp only [reqHandlers, hdata (by omega), reqPut, hkey, hvalue, hnode, Option.bind_eq_bind,
      Option.bind_some]
  | get =>
    have hfit := (readsGet_isSome _).mp hin
    simp only [Consumer.Fits] at hfit
    simp only [Consumer.reads, readsGet, Option.bind_eq_bind, Option.isSome_iff_exists,
      Option.bind_eq_some_iff] at hin
    obtain ⟨-, key, hkey, node, hnode, -⟩ := hin
    refine ⟨⟨srv.kv, none, some ⟨node, .getValueTimeStamp, .retValue, buf.text⟩⟩, ?_⟩
    simp only [reqHandlers, hdata (by omega), reqGet, hkey, hnode, Option.bind_eq_bind,
      Option.bind_some]
  | getTimeStamp =>
    rw [Consumer.reads, Option.isSome_map] at hin
    obtain ⟨k, hk⟩ := Option.isSome_iff_exists.mp hin
    obtain ⟨a, ha⟩ := exists_stamp (srv.kv.clockOf k)
    exact ⟨_, handled_getTimeStamp.mpr ⟨k, a, hk, ha, rfl⟩⟩
  | putReplica =>
    rw [Consumer.reads, Option.isSome_map] at hin
    obtain ⟨e, he⟩ := Option.isSome_iff_exists.mp hin
    obtain ⟨a, ha⟩ := exists_ack
    exact ⟨_, handled_putReplica.mpr ⟨e, a, he, ha, rfl⟩⟩
  | getValueTimeStamp =>
    rw [Consumer.reads, Option.isSome_map] at hin
    obtain ⟨k, hk⟩ := Option.isSome_iff_exists.mp hin
    obtain ⟨a, ha⟩ := exists_encode_clock (hfits k hk) (srv.kv.clockOf k)
    exact ⟨_, handled_getValueTimeStamp.mpr ⟨k, a, hk, ha, rfl⟩⟩
  | cmd => exact absurd rfl hcmd

end Handlers

end Avocado
