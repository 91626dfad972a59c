/-
# The size of an answer (`protocol.h`, `replica_context.h`)

A request is sent together with the buffer for its answer.  All these buffers have one size:
`create_buffers` is called with `max_package_size`, which is the largest value, a clock and the
overhead of a packet, and adds the overhead of a packet to it.  An answer to `GetValueTimeStamp` is
a header, the key, a clock, a value and the overhead of a packet.  So the key was forgotten, and the
second overhead is there instead of the header: it leaves 12 bytes, and with them keys of up to 12
bytes fit.  `RetValue` copies the same answer, decrypted, into an array of `max_package_size` bytes,
with the same 12 bytes to spare.

The sizes are `size_t`s, and close to `2^64` they wrap around.

The callback for commands compares the key of a request with `"DONE"`, as many bytes as the request
says, so it may read behind the request (`Abd/Bounds.lean`).  Its answer has the same length
whatever it finds there.
-/
import Avocado.Abd.Handlers
import Avocado.Crypt.Packet
import Avocado.Lib.CString

namespace Avocado

open Bytes PacketSsl

/-! ## 1. The code -/

/-- `max_package_size`, as the constructor of `ABD` computes it. -/
def maxPackageSize (maxValueSize : BitVec 64) : Nat :=
  (maxValueSize.toNat + KeyAccess.metaSize + metaDataSize) % 2 ^ 64

/-- The size of `resp` in `create_buffers(size, max_package_size)`. -/
def respBufferSize (maxValueSize : BitVec 64) : Nat := getBufferSize (maxPackageSize maxValueSize)

/-- `strncmp(text, key.buf, key.size) == 0` for the key of a message; `none` when it reads behind
the message. -/
def keyIs (text : CString) (msg : Msg) : Option Bool := do
  let key ← msg.getKey
  let mem ← key.buf
  strncmpEq (text.chars ++ [0]) mem key.size

/-- `"DONE"`. -/
def doneText : CString := ⟨[68, 79, 78, 69], by decide⟩

/-- What the callback `cmd` that `run_event_loop` installs compares its message with. -/
def isDone (msg : Msg) : Option Bool := keyIs doneText msg

/-- The callback's answer, `"ACK"` or `"ERR"` with the zero included. -/
def cmdAnswer (done : Bool) : Option Msg := do
  let builder ← MsgBuilder.new 5
  MsgBuilder.addKey builder (if done then [65, 67, 75, 0] else [69, 82, 82, 0])

/-- The callback `cmd`. -/
def cmdCallback (msg : Msg) : Option Msg := do
  let done ← isDone msg
  cmdAnswer done

/-- A server in `run_event_loop`.  Where the comparison has read behind the message, `behind` says
what came out. -/
def loopServer (kv : KVStore) (behind : Msg → Bool) : Server :=
  ⟨kv, some fun msg => (cmdAnswer ((isDone msg).getD (behind msg))).getD msg⟩

/-! ## 2. Requests for a key -/

/-- The requests of the servers' own operations on a key, and any command. -/
inductive Asks (key : List UInt8) : ReqType → Msg → Prop
  | getTimeStamp {msg : Msg} {v rest : List UInt8} (h : msg.ptr = image key v rest) :
      Asks key .getTimeStamp msg
  | putReplica {msg : Msg} {t : Lamport} {v rest : List UInt8}
      (h : msg.ptr = image (key ++ t.toBytes) v rest) : Asks key .putReplica msg
  | getValueTimeStamp {msg : Msg} {v rest : List UInt8} (h : msg.ptr = image key v rest) :
      Asks key .getValueTimeStamp msg
  | cmd {msg : Msg} (h : 0 < msg.ptr.length) : Asks key .cmd msg

/-- **Answers fit**: every request for the key is answered, the encrypted answer is not longer than
the buffer that was sent along, and the value that was asked for fits into `tmp`. -/
structure AnswersFit (maxValueSize : BitVec 64) (kv : KVStore) (key : List UInt8) : Prop where
  answer : ∀ behind type buf, Asks key type buf.text → ∃ h a,
    reqHandlers (loopServer kv behind) type buf = some h ∧ h.answer = some a ∧
      a.ptr.length + metaDataSize ≤ respBufferSize maxValueSize
  winner : ∀ behind buf h a, Asks key .getValueTimeStamp buf.text →
    reqHandlers (loopServer kv behind) .getValueTimeStamp buf = some h → h.answer = some a →
      a.ptr.length ≤ maxPackageSize maxValueSize

/-! ## 3. The length of each answer -/

section Lengths

variable {key v rest : List UInt8} {buf : MsgBuffer} (kv : KVStore) (behind : Msg → Bool)

theorem length_encode {a : Msg} (h : encode key v = some a) :
    a.ptr.length = 16 + (key.length + v.length) := by
  rw [encode_eq_some h, length_image, List.length_nil, Nat.add_zero]

theorem length_answer_getTimeStamp (h : buf.text.ptr = image key v rest) :
    ∃ a, reqHandlers (loopServer kv behind) .getTimeStamp buf = some ⟨kv, some a, none⟩ ∧
      a.ptr.length = 24 := by
  obtain ⟨a, ha⟩ := exists_stamp (kv.clockOf key)
  refine ⟨a, ?_, by rw [length_encode ha, Lamport.length_toBytes, List.length_nil]⟩
  simp only [reqHandlers, getData_image h, Option.bind_eq_bind, Option.bind_some,
    reqGetTimeStamp_image h]
  rw [show (loopServer kv behind).kv = kv from rfl, ha, Option.bind_some]

theorem length_answer_putReplica {t : Lamport}
    (h : buf.text.ptr = image (key ++ t.toBytes) v rest) :
    ∃ a, reqHandlers (loopServer kv behind) .putReplica buf = some ⟨(kv.put key v t).1, some a, none⟩ ∧
      a.ptr.length = 17 := by
  obtain ⟨a, ha⟩ := exists_ack
  refine ⟨a, ?_, by rw [length_encode ha]; rfl⟩
  simp only [reqHandlers, getData_image h, Option.bind_eq_bind, Option.bind_some,
    reqPutReplica_image h, ha]
  rfl

/-- The answer with key, clock and value, which exists as far as it fits into memory. -/
theorem answer_getValueTimeStamp (h : buf.text.ptr = image key v rest) :
    reqHandlers (loopServer kv behind) .getValueTimeStamp buf =
      (encode (key ++ (kv.clockOf key).toBytes) (kv.valueOf key)).bind
        fun a => some ⟨kv, some a, none⟩ := by
  simp only [reqHandlers, getData_image h, Option.bind_eq_bind, Option.bind_some,
    reqGetValueTimeStamp_image h]
  rfl

theorem length_answer_value {kv : KVStore} {a : Msg}
    (h : encode (key ++ (kv.clockOf key).toBytes) (kv.valueOf key) = some a) :
    a.ptr.length = 24 + (key.length + (kv.valueOf key).length) := by
  rw [length_encode h, List.length_append, Lamport.length_toBytes]
  omega

/-- Both answers have four bytes. -/
theorem exists_cmdAnswer (done : Bool) :
    ∃ m a, cmdAnswer done = some m ∧ m.frame = some a ∧ a.ptr.length = 20 := by
  obtain ⟨text, htext, hlen⟩ : ∃ text : List UInt8,
      (if done then [65, 67, 75, 0] else [69, 82, 82, 0]) = text ∧ text.length = 4 :=
    ⟨_, rfl, by split <;> rfl⟩
  obtain ⟨m, hm, himage⟩ := MsgBuilder.new_image (n := 5) (by omega)
  obtain ⟨m', hm', himage'⟩ := MsgBuilder.addKey_image (d := text) himage (by simp [hlen])
  obtain ⟨a, ha⟩ := exists_encode (k := [] ++ text) (v := []) (by simp [hlen])
  refine ⟨m', a, ?_, (Msg.frame_image himage').trans ha, by rw [length_encode ha]; simp [hlen]⟩
  rw [cmdAnswer, htext, hm]
  exact hm'

/-- The callback always answers. -/
theorem length_answer_cmd (h : 0 < buf.text.ptr.length) :
    ∃ a, reqHandlers (loopServer kv behind) .cmd buf = some ⟨kv, some a, none⟩ ∧ a.ptr.length = 20 := by
  have hdata : getData buf = some buf.text := if_pos h
  obtain ⟨m, a, hm, ha, hlen⟩ := exists_cmdAnswer ((isDone buf.text).getD (behind buf.text))
  refine ⟨a, ?_, hlen⟩
  simp only [reqHandlers, reqCmd, loopServer, hdata, hm, Option.getD_some, Option.bind_eq_bind,
    Option.bind_some, ha]

end Lengths

/-! ## 4. Which keys and values fit -/

section Fit

variable {kv : KVStore} {key : List UInt8} {maxValueSize : BitVec 64}

theorem maxPackageSize_eq (maxValueSize : BitVec 64) :
    maxPackageSize maxValueSize = (maxValueSize.toNat + 36) % 2 ^ 64 := rfl

theorem respBufferSize_eq (maxValueSize : BitVec 64) :
    respBufferSize maxValueSize = (maxValueSize.toNat + 64) % 2 ^ 64 := by
  rw [respBufferSize, maxPackageSize_eq, getBufferSize, show metaDataSize = 28 from rfl]
  omega

/-- The buffer decides; the array `tmp` has room for what fits into the buffer. -/
theorem le_maxPackageSize {n : Nat} (h : n + 28 ≤ respBufferSize maxValueSize) :
    n ≤ maxPackageSize maxValueSize := by
  have hlt := maxValueSize.isLt
  rw [respBufferSize_eq] at h
  rw [maxPackageSize_eq]
  omega

/-- The longest answer, which has key and value, needs 52 bytes more than these. -/
theorem room_of_answersFit (hkey : 16 + key.length < 2 ^ 64) (h : AnswersFit maxValueSize kv key) :
    52 + (key.length + (kv.valueOf key).length) ≤ respBufferSize maxValueSize := by
  obtain ⟨req, hreq⟩ := exists_encode (k := key) (v := []) (by simpa using hkey)
  have hask : (MsgBuffer.mk true req).text.ptr = image key [] [] := encode_eq_some hreq
  obtain ⟨r, a, hr, ha, hfit⟩ := h.answer (fun _ => false) _ ⟨true, req⟩ (.getValueTimeStamp hask)
  rw [answer_getValueTimeStamp kv _ hask, Option.bind_eq_some_iff] at hr
  obtain ⟨a', ha', hr⟩ := hr
  rw [Option.some.injEq] at hr
  rw [← hr, Option.some.injEq] at ha
  rw [← ha, length_answer_value ha', show metaDataSize = 28 from rfl] at hfit
  omega

/-- Where the longest answer fits, all do. -/
theorem answersFit_of_room
    (h : 52 + (key.length + (kv.valueOf key).length) ≤ respBufferSize maxValueSize) :
    AnswersFit maxValueSize kv key := by
  have hmeta : metaDataSize = 28 := rfl
  have hlt : respBufferSize maxValueSize < 2 ^ 64 := Nat.mod_lt _ (by decide)
  obtain ⟨a, ha⟩ := exists_encode_clock (k := key) (v := kv.valueOf key) (by omega)
    (kv.clockOf key)
  have hlen := length_answer_value ha
  refine ⟨fun behind type buf hask => ?_, fun behind buf r b hask hr hb => ?_⟩
  · cases hask with
    | getTimeStamp himage =>
      obtain ⟨b, hb, hblen⟩ := length_answer_getTimeStamp kv behind himage
      exact ⟨_, b, hb, rfl, by omega⟩
    | putReplica himage =>
      obtain ⟨b, hb, hblen⟩ := length_answer_putReplica kv behind himage
      exact ⟨_, b, hb, rfl, by omega⟩
    | getValueTimeStamp himage =>
      refine ⟨⟨kv, some a, none⟩, a, ?_, rfl, by omega⟩
      rw [answer_getValueTimeStamp kv behind himage, ha, Option.bind_some]
    | cmd hpos =>
      obtain ⟨b, hb, hblen⟩ := length_answer_cmd kv behind hpos
      exact ⟨_, b, hb, rfl, by omega⟩
  · cases hask with
    | getValueTimeStamp himage =>
      rw [answer_getValueTimeStamp kv behind himage, ha, Option.bind_some, Option.some.injEq] at hr
      rw [← hr, Option.some.injEq] at hb
      rw [← hb]
      exact le_maxPackageSize (by omega)

/-- **Answers fit** exactly if key and value are at most 12 bytes longer than the largest value.
The second case is that of sizes that have wrapped around. -/
theorem answersFit_iff (maxValueSize : BitVec 64) (kv : KVStore) (key : List UInt8)
    (hkey : 16 + key.length < 2 ^ 64) : AnswersFit maxValueSize kv key ↔
      (maxValueSize.toNat + 64 < 2 ^ 64 ∧
        key.length + (kv.valueOf key).length ≤ maxValueSize.toNat + 12) ∨
      2 ^ 64 + key.length + (kv.valueOf key).length ≤ maxValueSize.toNat + 12 := by
  have hlt := maxValueSize.isLt
  have hbuffer := respBufferSize_eq maxValueSize
  constructor
  · intro h
    have hroom := room_of_answersFit hkey h
    omega
  · intro h
    exact answersFit_of_room (by omega)

/-- A store with one value. -/
def oneValue (key : List UInt8) (size : Nat) : KVStore :=
  KVStore.empty.set key ⟨Lamport.min, List.replicate size 0⟩

theorem length_oneValue (key : List UInt8) (size : Nat) :
    ((oneValue key size).valueOf key).length = size := by
  rw [KVStore.valueOf, oneValue, KVStore.find_set_self, List.length_replicate]

/-- With a key of one byte there are eleven bytes left. -/
theorem oneValue_fits : AnswersFit 64 (oneValue [1] 64) [1] :=
  (answersFit_iff 64 (oneValue [1] 64) [1] (by decide)).mpr
    (Or.inl ⟨by decide, by rw [length_oneValue]; decide⟩)

/-- A key of 13 bytes. -/
def longKey : List UInt8 := List.replicate 13 1

/-- **One byte too long**: the answer has 129 bytes, its buffer 128, and `tmp` has 100 for the 101
bytes of the message. -/
theorem longKey_not_fits : ((oneValue longKey 64).valueOf longKey).length ≤ 64 ∧
    (∃ buf a, Asks longKey .getValueTimeStamp buf.text ∧
      (∀ behind, reqHandlers (loopServer (oneValue longKey 64) behind) .getValueTimeStamp buf =
        some ⟨oneValue longKey 64, some a, none⟩) ∧
      a.ptr.length + metaDataSize = 129 ∧ respBufferSize 64 = 128 ∧
      a.ptr.length = 101 ∧ maxPackageSize 64 = 100) ∧
    ¬ AnswersFit 64 (oneValue longKey 64) longKey := by
  have hvalue := length_oneValue longKey 64
  obtain ⟨req, hreq⟩ := exists_encode (k := longKey) (v := []) (by decide)
  have hask : Asks longKey .getValueTimeStamp req := .getValueTimeStamp (encode_eq_some hreq)
  obtain ⟨a, ha⟩ := exists_encode_clock (k := longKey) (v := (oneValue longKey 64).valueOf longKey)
    (by rw [hvalue]; decide) ((oneValue longKey 64).clockOf longKey)
  have hanswer : ∀ behind, reqHandlers (loopServer (oneValue longKey 64) behind)
      .getValueTimeStamp ⟨true, req⟩ = some ⟨oneValue longKey 64, some a, none⟩ := by
    intro behind
    rw [answer_getValueTimeStamp _ _ (encode_eq_some hreq), ha, Option.bind_some]
  have hlen : a.ptr.length = 101 := by
    rw [length_answer_value ha, hvalue]
    rfl
  refine ⟨hvalue.le, ⟨⟨true, req⟩, a, hask, hanswer, by rw [hlen]; rfl, by decide, hlen, by decide⟩,
    fun h => ?_⟩
  have hle := h.winner (fun _ => false) _ _ _ hask (hanswer _) rfl
  rw [hlen] at hle
  exact absurd hle (by decide)

/-- **The keys that are safe with every value** are those of up to 12 bytes. -/
theorem forall_answersFit_iff (hsize : maxValueSize.toNat + 64 < 2 ^ 64)
    (hkey : 16 + key.length < 2 ^ 64) :
    (∀ kv : KVStore, (kv.valueOf key).length ≤ maxValueSize.toNat →
      AnswersFit maxValueSize kv key) ↔ key.length ≤ 12 := by
  have hbuffer := respBufferSize_eq maxValueSize
  constructor
  · intro h
    have hvalue := length_oneValue key maxValueSize.toNat
    have hroom := room_of_answersFit hkey (h _ hvalue.le)
    omega
  · intro h kv hvalue
    exact answersFit_of_room (by omega)

end Fit

end Avocado
