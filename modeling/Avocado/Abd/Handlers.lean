/-
# Request handlers (`protocol.h`, `req_handlers`)

What a server does with one received request.  A received buffer is described by what
`PacketSsl::decrypt` makes of it: the status it returns and the bytes that are in the output array
afterwards (`MsgBuffer`).  `get_data` hands the array on whatever the status is, so the handlers
below are functions of the array alone.

A handler reads and writes the server's store, may answer, and (for the requests of a client, `Put`
and `Get`) starts an operation.  `Handled` holds these effects.  Section 3 says what each handler
does with a well-formed message: these are the only facts about handlers that later files use.
-/
import Avocado.Memtable.Store

namespace Avocado

/-! ## 1. Buffers and request types -/

/-- An encrypted buffer, by what `PacketSsl::decrypt` returns for it and leaves in the output
array.  A buffer whose tag does not verify has `decrypts = false`, and its array is then
unconstrained. -/
structure MsgBuffer where
  decrypts : Bool
  text : Msg
  deriving DecidableEq, Repr

/-- `enum ReqType`. -/
inductive ReqType
  | put
  | get
  | getTimeStamp
  | putReplica
  | getValueTimeStamp
  | cmd
  deriving DecidableEq, Repr

/-- `enum ContType`, the continuations of `Put` and `Get` operations. -/
inductive ContType
  | getTime
  | ackPutTime
  | retValue
  | retGetPutUpdate
  deriving DecidableEq, Repr

/-- `ABD::get_data`.  The status of the decryption is dropped.  `get_message_size` asserts that
the buffer is longer than IV and MAC. -/
def getData (buf : MsgBuffer) : Option Msg :=
  if 0 < buf.text.ptr.length then some buf.text else none

/-- The part of a server that its request handlers use: the store, and the callback `cmd`. -/
structure Server where
  kv : KVStore
  cmd : Option (Msg → Msg)

/-- The operation that a `Put` or `Get` request starts: `rep_context->data`, the request that goes
to the replicas and its continuation. -/
structure Start where
  data : Node
  type : ReqType
  cont : ContType
  msg : Msg
  deriving DecidableEq, Repr

/-- What a handler did: the store it leaves, its answer, and the operation it started. -/
structure Handled where
  kv : KVStore
  answer : Option Msg
  start : Option Start

/-! ## 2. The handlers -/

/-- What `add_key(ACK)` copies: one element of the array `"ACK"`. -/
def ack : List UInt8 := [65]

/-- `ACK_SZ`, the terminating zero included. -/
def ackSz : Nat := 4

/-- `req_handlers<Put>`. -/
def reqPut (srv : Server) (data : Msg) : Option Handled := do
  let key ← data.getKey
  let value ← data.getValue
  let node ← createNode key value Lamport.min
  some ⟨srv.kv, none, some ⟨node, .getTimeStamp, .getTime, data⟩⟩

/-- `req_handlers<Get>`. -/
def reqGet (srv : Server) (data : Msg) : Option Handled := do
  let key ← data.getKey
  let node ← createNode key ⟨0, none⟩ Lamport.min
  some ⟨srv.kv, none, some ⟨node, .getValueTimeStamp, .retValue, data⟩⟩

/-- `req_handlers<GetTimeStamp>`. -/
def reqGetTimeStamp (srv : Server) (data : Msg) : Option Handled := do
  let key ← data.getKey
  let k ← key.bytes
  let res := srv.kv.get k
  let msg ← MsgBuilder.new 8
  let msg ← MsgBuilder.addKey msg res.lamport.toBytes
  let answer ← msg.frame
  some ⟨srv.kv, some answer, none⟩

/-- `req_handlers<PutReplica>`. -/
def reqPutReplica (srv : Server) (data : Msg) : Option Handled := do
  let keySize ← data.getKeySize
  let key ← data.getKey
  let clock ← KeyAccess.getLamport keySize key.buf
  let k ← key.buf.read 0 (KeyAccess.subMetaSize keySize)
  let valueSize ← data.getValueSize
  let value ← data.getValue
  let v ← value.buf.read 0 valueSize
  let msg ← MsgBuilder.new ackSz
  let msg ← MsgBuilder.addKey msg ack
  let answer ← msg.frame
  some ⟨(srv.kv.put k v clock).1, some answer, none⟩

/-- `req_handlers<GetValueTimeStamp>`. -/
def reqGetValueTimeStamp (srv : Server) (data : Msg) : Option Handled := do
  let key ← data.getKey
  let k ← key.bytes
  let res := srv.kv.get k
  match res.value with
  | some _ =>
    let v ← res.value.read 0 res.size
    let msg ← MsgBuilder.new (KeyAccess.addMetaSize key.size + res.size)
    let msg ← MsgBuilder.addKey msg k
    let msg ← MsgBuilder.addKey msg res.lamport.toBytes
    let msg ← MsgBuilder.addValue msg v
    let answer ← msg.frame
    some ⟨srv.kv, some answer, none⟩
  | none =>
    let msg ← MsgBuilder.new (KeyAccess.addMetaSize key.size)
    let msg ← MsgBuilder.addKey msg k
    let msg ← MsgBuilder.addKey msg Lamport.min.toBytes
    let answer ← msg.frame
    some ⟨srv.kv, some answer, none⟩

/-- `req_handlers<Cmd>`: without a callback the request is dropped unread. -/
def reqCmd (srv : Server) (buf : MsgBuffer) : Option Handled :=
  match srv.cmd with
  | none => some ⟨srv.kv, none, none⟩
  | some cmd => do
    let data ← getData buf
    let answer ← (cmd data).frame
    some ⟨srv.kv, some answer, none⟩

/-- `ABD::req_handlers<TYPE>`. -/
def reqHandlers (srv : Server) (type : ReqType) (buf : MsgBuffer) : Option Handled :=
  match type with
  | .put => do reqPut srv (← getData buf)
  | .get => do reqGet srv (← getData buf)
  | .getTimeStamp => do reqGetTimeStamp srv (← getData buf)
  | .putReplica => do reqPutReplica srv (← getData buf)
  | .getValueTimeStamp => do reqGetValueTimeStamp srv (← getData buf)
  | .cmd => reqCmd srv buf

/-! ## 3. The handlers on well-formed messages -/

variable {srv : Server} {data : Msg} {k v rest : List UInt8}

theorem getData_image {buf : MsgBuffer} (h : buf.text.ptr = image k v rest) :
    getData buf = some buf.text := by
  rw [getData, if_pos (by rw [h, length_image]; omega)]

/-- The key of a well-formed message. -/
theorem getKey_bytes_image (h : data.ptr = image k v rest) :
    ∃ key, data.getKey = some key ∧ key.size = k.length ∧ key.bytes = some k ∧
      key.buf = some (k ++ v ++ rest) := by
  refine ⟨_, Msg.getKey_image h, rfl, ?_, rfl⟩
  rw [Span.bytes]
  exact Msg.read_key_image (b := v) (c := rest)

/-- A `GetTimeStamp` request for `k` is answered with the store's clock for `k`. -/
theorem reqGetTimeStamp_key {key : Span} (hkey : data.getKey = some key)
    (hk : key.bytes = some k) :
    reqGetTimeStamp srv data =
      (encode (srv.kv.clockOf k).toBytes []).bind fun a => some ⟨srv.kv, some a, none⟩ := by
  simp only [reqGetTimeStamp, hkey, hk, Option.bind_eq_bind, Option.bind_some,
    KVStore.get_lamport]
  rw [MsgBuilder.build_key (by simp), MsgBuilder.encode_bind_frame]

theorem reqGetTimeStamp_image (h : data.ptr = image k v rest) :
    reqGetTimeStamp srv data =
      (encode (srv.kv.clockOf k).toBytes []).bind fun a => some ⟨srv.kv, some a, none⟩ := by
  obtain ⟨key, hkey, -, hk, -⟩ := getKey_bytes_image h
  exact reqGetTimeStamp_key hkey hk

/-- The acknowledgement as it is sent. -/
theorem exists_ack : ∃ a, encode ack [] = some a := exists_encode (by simp [ack])

theorem exists_stamp (t : Lamport) : ∃ a, encode t.toBytes [] = some a := exists_encode (by simp)

/-- The acknowledgement: one byte in a message built for four. -/
theorem frame_ack {β : Type} (f : Msg → Option β) :
    ((MsgBuilder.new ackSz).bind fun m => (MsgBuilder.addKey m ack).bind fun m => m.frame.bind f)
      = (encode ack []).bind f := by
  obtain ⟨m, h1, e1⟩ := MsgBuilder.new_image (n := ackSz) (by simp [ackSz])
  obtain ⟨m2, h2, e2⟩ := MsgBuilder.addKey_image (d := ack) e1 (by simp [ack, ackSz])
  rw [h1, Option.bind_some, h2, Option.bind_some, Msg.frame_image e2]
  rfl

/-- The key, value and clock that a `PutReplica` request puts. -/
def replicaEntry (data : Msg) : Option (List UInt8 × List UInt8 × Lamport) := do
  let keySize ← data.getKeySize
  let key ← data.getKey
  let clock ← KeyAccess.getLamport keySize key.buf
  let k ← key.buf.read 0 (KeyAccess.subMetaSize keySize)
  let valueSize ← data.getValueSize
  let value ← data.getValue
  let v ← value.buf.read 0 valueSize
  some (k, v, clock)

theorem reqPutReplica_eq (srv : Server) (data : Msg) :
    reqPutReplica srv data = (replicaEntry data).bind fun e => (encode ack []).bind fun a =>
      some ⟨(srv.kv.put e.1 e.2.1 e.2.2).1, some a, none⟩ := by
  simp only [reqPutReplica, replicaEntry, Option.bind_eq_bind, Option.bind_assoc, Option.bind_some]
  simp only [frame_ack]

/-- A handler leaves the store alone, or it is `PutReplica` and puts its entry. -/
theorem reqHandlers_kv {type : ReqType} {buf : MsgBuffer} {h : Handled}
    (hh : reqHandlers srv type buf = some h) : h.kv = srv.kv ∨
      ∃ e, replicaEntry buf.text = some e ∧ h.kv = (srv.kv.put e.1 e.2.1 e.2.2).1 := by
  cases type with
  | put =>
    simp only [reqHandlers, reqPut, Option.bind_eq_bind, Option.bind_eq_some_iff,
      Option.some.injEq] at hh
    obtain ⟨_, _, _, _, _, _, _, _, rfl⟩ := hh
    exact Or.inl rfl
  | get =>
    simp only [reqHandlers, reqGet, Option.bind_eq_bind, Option.bind_eq_some_iff,
      Option.some.injEq] at hh
    obtain ⟨_, _, _, _, _, _, rfl⟩ := hh
    exact Or.inl rfl
  | getTimeStamp =>
    simp only [reqHandlers, reqGetTimeStamp, Option.bind_eq_bind, Option.bind_eq_some_iff,
      Option.some.injEq] at hh
    obtain ⟨_, _, _, _, _, _, _, _, _, _, _, _, rfl⟩ := hh
    exact Or.inl rfl
  | putReplica =>
    simp only [reqHandlers, reqPutReplica_eq, Option.bind_eq_bind, Option.bind_eq_some_iff,
      Option.some.injEq] at hh
    obtain ⟨data, hdata, e, he, _, _, rfl⟩ := hh
    unfold getData at hdata
    split at hdata
    · rw [Option.some.injEq] at hdata
      exact Or.inr ⟨e, hdata ▸ he, rfl⟩
    · exact absurd hdata (by simp)
  | getValueTimeStamp =>
    simp only [reqHandlers, reqGetValueTimeStamp, Option.bind_eq_bind, Option.bind_eq_some_iff] at hh
    obtain ⟨_, _, _, _, _, _, hh⟩ := hh
    split at hh
    · simp only [Option.bind_eq_some_iff, Option.some.injEq] at hh
      obtain ⟨_, _, _, _, _, _, _, _, _, _, _, _, rfl⟩ := hh
      exact Or.inl rfl
    · simp only [Option.bind_eq_some_iff, Option.some.injEq] at hh
      obtain ⟨_, _, _, _, _, _, _, _, rfl⟩ := hh
      exact Or.inl rfl
  | cmd =>
    simp only [reqHandlers, reqCmd] at hh
    split at hh
    · injection hh with hh
      exact Or.inl (hh ▸ rfl)
    · simp only [Option.bind_eq_bind, Option.bind_eq_some_iff, Option.some.injEq] at hh
      obtain ⟨_, _, _, _, rfl⟩ := hh
      exact Or.inl rfl

/-- What a message with key, clock and value puts. -/
theorem replicaEntry_image {t : Lamport} (h : data.ptr = image (k ++ t.toBytes) v rest) :
    replicaEntry data = some (k, v, t) := by
  obtain ⟨s, hs, -, hv⟩ := Msg.getValue_image h
  have hclock : KeyAccess.getLamport (k ++ t.toBytes).length (some (k ++ t.toBytes ++ v ++ rest))
      = some t := KeyAccess.getLamport_key (by simp)
  have hl : KeyAccess.subMetaSize (k ++ t.toBytes).length = k.length := by
    simp [KeyAccess.subMetaSize, KeyAccess.metaSize]
  have hk : Ptr.read (some (k ++ t.toBytes ++ v ++ rest)) 0 k.length = some k := by
    rw [List.append_assoc, List.append_assoc, ← List.append_assoc]
    exact Msg.read_key_image
  simp only [replicaEntry, Msg.getKeySize_image h, Msg.getKey_image h,
    Msg.getValueSize_image h, hs, Option.bind_eq_bind, Option.bind_some, hclock, hl, hk, hv]

/-- A `PutReplica` request stores its value under its key and clock, and is acknowledged. -/
theorem reqPutReplica_image {t : Lamport} (h : data.ptr = image (k ++ t.toBytes) v rest) :
    reqPutReplica srv data =
      (encode ack []).bind fun a => some ⟨(srv.kv.put k v t).1, some a, none⟩ := by
  rw [reqPutReplica_eq, replicaEntry_image h]
  rfl

/-- The value a `GetValueTimeStamp` request for `k` is answered with. -/
def KVStore.valueOf (kv : KVStore) (k : List UInt8) : List UInt8 :=
  match kv.find k with
  | none => []
  | some m => m.data

/-- A `GetValueTimeStamp` request for `k` is answered with `k`, the store's clock for `k` and its
value; an absent key has the least clock and no value. -/
theorem reqGetValueTimeStamp_key {key : Span} (hkey : data.getKey = some key)
    (hsize : key.size = k.length) (hk : key.bytes = some k) :
    reqGetValueTimeStamp srv data =
      (encode (k ++ (srv.kv.clockOf k).toBytes) (srv.kv.valueOf k)).bind
        fun a => some ⟨srv.kv, some a, none⟩ := by
  cases hf : srv.kv.find k with
  | none =>
    simp only [reqGetValueTimeStamp, hkey, hk, Option.bind_eq_bind, Option.bind_some,
      KVStore.get_of_none hf, RetValue.absent, KVStore.clockOf_of_none hf, KVStore.valueOf, hf]
    rw [MsgBuilder.build_key₂ (by simp [KeyAccess.addMetaSize, KeyAccess.metaSize, hsize]),
      MsgBuilder.encode_bind_frame]
  | some m =>
    have hv : Ptr.read (some m.data) 0 m.data.length = some m.data := by
      simpa using Msg.read_key_image (a := m.data) (b := []) (c := [])
    simp only [reqGetValueTimeStamp, hkey, hk, Option.bind_eq_bind, Option.bind_some,
      KVStore.get_of_some hf, hv, KVStore.clockOf_of_some hf, KVStore.valueOf, hf]
    rw [MsgBuilder.build_key₂_value
        (by simp [KeyAccess.addMetaSize, KeyAccess.metaSize, hsize]),
      MsgBuilder.encode_bind_frame]

theorem reqGetValueTimeStamp_image (h : data.ptr = image k v rest) :
    reqGetValueTimeStamp srv data =
      (encode (k ++ (srv.kv.clockOf k).toBytes) (srv.kv.valueOf k)).bind
        fun a => some ⟨srv.kv, some a, none⟩ := by
  obtain ⟨key, hkey, hsize, hk, -⟩ := getKey_bytes_image h
  exact reqGetValueTimeStamp_key hkey hsize hk

end Avocado
