/-
# A put's value while `GetTime` waits

`benchmark_put` puts the value into a node at once: `create_node` encrypts it to a chunk of the
slab, which belongs to the host, and the node waits in the replica context until the timestamps
have come back.  `GetTime` then decrypts it, builds the `PutReplica` message from what
`decrypt_node` returns, sends it, and puts the node.

`decrypt_node` answers a failure with `{0, 0, nullptr}`, a value of no bytes, and `GetTime` does
not ask.  So a put whose chunk was changed replicates the empty value under the new clock and
stores the node (`replicatesOrNothing_iff`).
-/
import Avocado.Abd.RoundTrip
import Avocado.Memtable.Linearizable

namespace Avocado.Memtable

open Relation Lookup

/-! ## 1. The store with parked nodes -/

section Store

variable {S : AtomicSet VarKeySizeNode}

/-- `create_node` in `benchmark_put`: the node is not in the list. -/
def State.park (s : State S) (cipher : CipherSsl) (value : List UInt8) : State S :=
  { s with mem := (s.mem.createNode cipher value Lamport.min).1 }

/-- The end of `GetTime`: `node.meta->clock = clock`, and the call of `kv.put(node)`. -/
def State.putNode (s : State S) (key : List UInt8) (p : Nat) (clock : Lamport) : Option (State S) := do
  let md ← s.mem.metas[p]?
  some (s.invoke { s.mem with metas := s.mem.metas.set p { md with clock := clock } }
    (.put key md.value clock) (.add p))

/-- What happens to the store: the steps of `Memtable/Concurrent.lean`, the host's included, and
puts that park a node or put a parked one. -/
inductive ParkAction
  | step (a : Action)
  | park (value : List UInt8)
  | putNode (key : List UInt8) (p : Nat) (clock : Lamport)
  deriving DecidableEq

def parkStep (cipher : CipherSsl) (s : State S) : ParkAction → Option (State S)
  | .step a => step cipher s a
  | .park value => some (s.park cipher value)
  | .putNode key p clock => s.putNode key p clock

end Store

/-! ## 2. `GetTime` with a parked node -/

/-- What `GetTime` has done: the messages it has sent, and the store with its call. -/
structure PutSent (Srv : Type) (S : AtomicSet VarKeySizeNode) where
  sent : List (Srv × Msg)
  store : State S

/-- The `PutReplica` message of `GetTime`.  `dataSize` is `node.meta->data_size`, and `res` is what
`decrypt_node` returned. -/
def parkedMsg (key : List UInt8) (dataSize : Nat) (clock : Lamport) (res : RetValue) : Option Msg := do
  let msg ← MsgBuilder.new (KeyAccess.addMetaSize key.length + dataSize)
  let msg ← MsgBuilder.addKey msg key
  let msg ← MsgBuilder.addKey msg clock.toBytes
  let value ← res.value.read 0 res.size
  MsgBuilder.addValue msg value

/-- The second half of `GetTime`, with `clock` chosen: decrypt, build, send, put. -/
def getTimeParked {Srv : Type} {S : AtomicSet VarKeySizeNode} (cipher : CipherSsl)
    (s : State S) (reps : List Srv) (key : List UInt8) (p : Nat) (clock : Lamport) :
    Option (PutSent Srv S) := do
  let md ← s.mem.metas[p]?
  let res ← s.mem.decryptNode cipher p
  let msg ← parkedMsg key md.dataSize clock res
  let wire ← msg.frame
  let store ← s.putNode key p clock
  some ⟨reps.map fun r => (r, wire), store⟩

theorem putMsg_eq_parkedMsg (node : Node) (clock : Lamport) (res : RetValue) :
    putMsg node clock res = parkedMsg node.key node.metaData.data.length clock res := rfl

/-- The put sends the client's value, or sends nothing (so that nothing is acknowledged) and leaves
the store alone. -/
def ReplicatesOrNothing {Srv : Type} {S : AtomicSet VarKeySizeNode} (s : State S)
    (key value : List UInt8) (clock : Lamport) (e : PutSent Srv S) : Prop :=
  (e.sent ≠ [] ∧ ∀ q ∈ e.sent, replicaEntry q.2 = some (key, value, clock)) ∨
    (e.sent = [] ∧ e.store = s)

/-! ## 3. A parked node stays parked -/

section Parked

variable {S : AtomicSet VarKeySizeNode} {cipher : CipherSsl} {s s' : State S} {p : Nat}
  {value : List UInt8}

/-- There is a chunk for each `MetaData` object. -/
def Chunks (s : State S) : Prop := s.mem.slab.length = s.mem.metas.length

/-- The tag and the size at `p` are those of `value`, whatever its chunk has become. -/
structure Parked (cipher : CipherSsl) (s : State S) (p : Nat) (value : List UInt8) : Prop where
  chunk : ∃ chunk, s.mem.slab[p]? = some chunk
  sealed : ∃ md, s.mem.metas[p]? = some md ∧ md.mac = (cipher.encrypt value).2 ∧
    md.dataSize = value.length ∧ md.value = value

/-- **What the memory becomes**: the objects and chunks are as before; or a new node has its own;
or the host wrote a chunk; or a node got its clock. -/
theorem mem_cases (hS : S.Lawful VarKeySizeNode.lt) {a : ParkAction}
    (hstep : parkStep cipher s a = some s') :
    (s'.mem.metas = s.mem.metas ∧ s'.mem.slab = s.mem.slab) ∨
    (∃ v clock, s'.mem.metas = (s.mem.createNode cipher v clock).1.metas ∧
      s'.mem.slab = (s.mem.createNode cipher v clock).1.slab) ∨
    (∃ q bytes, s'.mem.metas = s.mem.metas ∧ s'.mem.slab = s.mem.slab.set q bytes) ∨
    (∃ q md clock, s.mem.metas[q]? = some md ∧
      s'.mem.metas = s.mem.metas.set q { md with clock := clock } ∧ s'.mem.slab = s.mem.slab) := by
  cases a with
  | step a =>
    rcases step_cases hstep with ⟨key, v, clock, -, rfl⟩ | ⟨key, -, rfl⟩ |
      ⟨i, spurious, c, e, -, -, he, rfl⟩ | ⟨q, bytes, -, rfl⟩
    · exact Or.inr (Or.inl ⟨v, clock, rfl, rfl⟩)
    · exact Or.inl ⟨rfl, rfl⟩
    · exact Or.inl ⟨(next_cases hS he).metas_eq, (next_cases hS he).slab_eq⟩
    · exact Or.inr (Or.inr (Or.inl ⟨q, bytes, rfl, rfl⟩))
  | park v =>
    injection hstep with hstep
    subst hstep
    exact Or.inr (Or.inl ⟨v, Lamport.min, rfl, rfl⟩)
  | putNode key q clock =>
    simp only [parkStep, State.putNode, Option.bind_eq_bind, Option.bind_eq_some_iff,
      Option.some.injEq] at hstep
    obtain ⟨md, hmd, rfl⟩ := hstep
    exact Or.inr (Or.inr (Or.inr ⟨q, md, clock, hmd, rfl, rfl⟩))

theorem Chunks.step (hS : S.Lawful VarKeySizeNode.lt) (h : Chunks s) {a : ParkAction}
    (hstep : parkStep cipher s a = some s') : Chunks s' := by
  unfold Chunks at h ⊢
  rcases mem_cases hS hstep with ⟨hm, hc⟩ | ⟨v, clock, hm, hc⟩ | ⟨q, bytes, hm, hc⟩ |
    ⟨q, md, clock, -, hm, hc⟩
  · rw [hm, hc, h]
  · rw [hm, hc]
    simp [Mem.createNode, h]
  · rw [hm, hc, List.length_set, h]
  · rw [hm, hc, List.length_set, h]

theorem Parked.step (hS : S.Lawful VarKeySizeNode.lt) (h : Parked cipher s p value) {a : ParkAction}
    (hstep : parkStep cipher s a = some s') : Parked cipher s' p value := by
  obtain ⟨⟨chunk, hchunk⟩, md, hmd, hmac, hsize, hval⟩ := h
  rcases mem_cases hS hstep with ⟨hm, hc⟩ | ⟨v, clock, hm, hc⟩ | ⟨q, bytes, hm, hc⟩ |
    ⟨q, md', clock, hmd', hm, hc⟩
  · exact ⟨⟨chunk, by rw [hc, hchunk]⟩, md, by rw [hm, hmd], hmac, hsize, hval⟩
  · exact ⟨⟨chunk, by rw [hc]; exact getElem?_concat_left hchunk⟩, md,
      by rw [hm]; exact getElem?_concat_left hmd, hmac, hsize, hval⟩
  · refine ⟨?_, md, by rw [hm, hmd], hmac, hsize, hval⟩
    rw [hc, List.getElem?_set]
    split
    · rename_i hq
      subst hq
      have hlt := (List.getElem?_eq_some_iff.mp hchunk).1
      exact ⟨bytes, by rw [if_pos hlt]⟩
    · exact ⟨chunk, hchunk⟩
  · refine ⟨⟨chunk, by rw [hc, hchunk]⟩, ?_⟩
    by_cases hq : q = p
    · subst hq
      rw [hmd, Option.some.injEq] at hmd'
      subst hmd'
      exact ⟨{ md with clock := clock }, by rw [hm]; exact getElem?_set_self_of_some hmd, hmac,
        hsize, hval⟩
    · exact ⟨md, by rw [hm, List.getElem?_set_ne hq, hmd], hmac, hsize, hval⟩

/-- `create_node` parks its value. -/
theorem parked_park (h : Chunks s) : Parked cipher (s.park cipher value) s.mem.metas.length value where
  chunk := ⟨(cipher.encrypt value).1, by
    rw [State.park, Mem.createNode]
    simp only
    rw [← h, List.getElem?_concat_length]⟩
  sealed := ⟨_, List.getElem?_concat_length, rfl, rfl, rfl⟩

end Parked

/-! ## 4. What is replicated -/

section Replicated

variable {Srv : Type} {S : AtomicSet VarKeySizeNode} {cipher : CipherSsl} {s : State S} {p : Nat}
  {key value : List UInt8}

/-- What `decrypt_node` returns for a parked node. -/
theorem Parked.decryptNode (hc : cipher.Lawful) (hauth : cipher.Authenticates)
    (h : Parked cipher s p value) :
    (s.mem.intact cipher p = true ∧
      ∃ clock, s.mem.decryptNode cipher p = some ⟨clock, value.length, some value⟩) ∨
    (s.mem.intact cipher p = false ∧ s.mem.decryptNode cipher p = some .absent ∧ value ≠ []) := by
  obtain ⟨⟨chunk, hchunk⟩, md, hmd, hmac, hsize, hval⟩ := h
  have hintact : s.mem.intact cipher p = (chunk.take md.dataSize == (cipher.encrypt value).1) := by
    simp only [Mem.intact, hmd, hchunk, hval]
  by_cases heq : chunk.take md.dataSize = (cipher.encrypt value).1
  · refine Or.inl ⟨by rw [hintact, heq, beq_self_eq_true], md.clock, ?_⟩
    rw [hsize] at heq
    simp only [Mem.decryptNode, hmd, hchunk, Option.bind_eq_bind, Option.bind_some, hmac, hsize,
      heq, hc.decrypt_encrypt]
  · refine Or.inr ⟨by rw [hintact, beq_eq_false_iff_ne]; exact heq, ?_, ?_⟩
    · simp only [Mem.decryptNode, hmd, hchunk, Option.bind_eq_bind, Option.bind_some, hmac,
        hauth _ _ heq]
    · -- nothing is encrypted as nothing
      rintro rfl
      have hnil : (cipher.encrypt []).1 = [] :=
        List.length_eq_zero_iff.mp (by rw [hc.length_encrypt, List.length_nil])
      rw [hsize, List.length_nil, List.take_zero, hnil] at heq
      exact heq rfl

/-- The message with the value, and the message without one. -/
theorem exists_parkedMsg (hfits : 24 + (key.length + value.length) < 2 ^ 64) (clock c : Lamport) :
    (∃ msg wire, parkedMsg key value.length clock ⟨c, value.length, some value⟩ = some msg ∧
      msg.frame = some wire ∧ replicaEntry wire = some (key, value, clock)) ∧
    (∃ msg wire, parkedMsg key value.length clock .absent = some msg ∧
      msg.frame = some wire ∧ replicaEntry wire = some (key, [], clock)) := by
  constructor
  · obtain ⟨msg, a, hmsg, hframe, hentry, -⟩ := putReplica_roundTrips hfits clock
    exact ⟨msg, msg, hmsg, hframe, hentry⟩
  · obtain ⟨msg, rest, hmsg, himg⟩ := exists_putMsg_absent hfits clock
    obtain ⟨wire, hwire⟩ := exists_encode_clock (k := key) (v := []) (by simp; omega) clock
    exact ⟨msg, wire, hmsg, (Msg.frame_image himg).trans hwire,
      replicaEntry_image (encode_eq_some hwire)⟩

/-- **When a put replicates its value or nothing**: if the chunk is as `create_node` wrote it when
`GetTime` decrypts it. -/
theorem replicatesOrNothing_iff
    (hS : IsStrictWeakOrder VarKeySizeNode VarKeySizeNode.lt → S.Lawful VarKeySizeNode.lt)
    (hc : cipher.Lawful) (hauth : cipher.Authenticates) {s₀ : State S} {reps : List Srv}
    (hreps : reps ≠ []) (hfits : 24 + (key.length + value.length) < 2 ^ 64) (clock : Lamport)
    (hinit : ReflTransGen (Run.Moves (parkStep cipher)) (State.init S) s₀)
    (hrun : ReflTransGen (Run.Moves (parkStep cipher)) (s₀.park cipher value) s) :
    ∃ e, getTimeParked cipher s reps key s₀.mem.metas.length clock = some e ∧
      (ReplicatesOrNothing s key value clock e ↔
        s.mem.intact cipher s₀.mem.metas.length = true) := by
  have hS' : S.Lawful VarKeySizeNode.lt := hS inferInstance
  have hchunks : Chunks s₀ :=
    Run.invariant (I := Chunks) (fun _ _ h ⟨_, hstep⟩ => h.step hS' hstep) hinit rfl
  have hparked : Parked cipher s s₀.mem.metas.length value :=
    Run.invariant (I := fun s => Parked cipher s s₀.mem.metas.length value)
      (fun _ _ h ⟨_, hstep⟩ => h.step hS' hstep) hrun (parked_park hchunks)
  obtain ⟨md, hmd, -, hsize, -⟩ := hparked.sealed
  obtain ⟨store, hstore⟩ : ∃ store, s.putNode key s₀.mem.metas.length clock = some store :=
    Option.isSome_iff_exists.mp (by simp [State.putNode, hmd])
  -- whatever was decrypted is sent to every replica
  have hsent : ∀ {res : RetValue} {msg wire : Msg} {v : List UInt8},
      s.mem.decryptNode cipher s₀.mem.metas.length = some res →
      parkedMsg key value.length clock res = some msg → msg.frame = some wire →
      replicaEntry wire = some (key, v, clock) →
      ∃ e, getTimeParked cipher s reps key s₀.mem.metas.length clock = some e ∧
        (ReplicatesOrNothing s key value clock e ↔ v = value) := by
    intro res msg wire v hres hmsg hwire hentry
    refine ⟨⟨reps.map fun r => (r, wire), store⟩, ?_, ?_⟩
    · simp only [getTimeParked, hmd, hsize, hres, hmsg, hwire, hstore, Option.bind_eq_bind,
        Option.bind_some]
    · constructor
      · rintro (⟨-, hall⟩ | ⟨hnil, -⟩)
        · obtain ⟨r, rs, rfl⟩ := List.exists_cons_of_ne_nil hreps
          have heq := hall (r, wire) (by simp)
          rw [hentry, Option.some.injEq, Prod.mk.injEq, Prod.mk.injEq] at heq
          exact heq.2.1
        · exact absurd (List.map_eq_nil_iff.mp hnil) hreps
      · rintro rfl
        refine Or.inl ⟨by simpa using hreps, fun q hq => ?_⟩
        obtain ⟨r, -, rfl⟩ := List.mem_map.mp hq
        exact hentry
  rcases hparked.decryptNode hc hauth with ⟨hi, c, hres⟩ | ⟨hi, hres, hne⟩
  · obtain ⟨⟨msg, wire, hmsg, hwire, hentry⟩, -⟩ := exists_parkedMsg hfits clock c
    obtain ⟨e, he, hiff⟩ := hsent hres hmsg hwire hentry
    exact ⟨e, he, by simp [hiff, hi]⟩
  · obtain ⟨-, msg, wire, hmsg, hwire, hentry⟩ := exists_parkedMsg hfits clock clock
    obtain ⟨e, he, hiff⟩ := hsent hres hmsg hwire hentry
    exact ⟨e, he, by simp [hiff, hi, hne.symm]⟩

end Replicated

/-- A put of 7 is parked, and the host writes the chunk before `GetTime` reads it. -/
def parkAndOverwrite : State (AtomicSet.sorted VarKeySizeNode.lt) :=
  ((State.init _).park maskCipher [7]).overwrite 0 [0]

theorem replicatesOrNothing_iff_overwrite :
    ∃ e, getTimeParked maskCipher parkAndOverwrite [()] [1] 0 ⟨1, 1⟩ = some e ∧
      (ReplicatesOrNothing parkAndOverwrite [1] [7] ⟨1, 1⟩ e ↔
        parkAndOverwrite.mem.intact maskCipher 0 = true) :=
  replicatesOrNothing_iff (fun _ => AtomicSet.sorted_lawful _)
    maskCipher_lawful maskCipher_authenticates (by simp) (by decide) ⟨1, 1⟩ .refl
    (.single ⟨.step (.overwrite 0 [0]), rfl⟩)

/-- **An empty value is replicated.**  The message says that the key `[1]` has no bytes, and the put
of the node goes on. -/
theorem replicates_empty_overwrite :
    ∃ e wire, getTimeParked maskCipher parkAndOverwrite [()] [1] 0 ⟨1, 1⟩ = some e ∧
      e.sent = [((), wire)] ∧ replicaEntry wire = some ([1], [], ⟨1, 1⟩) ∧
      e.store.calls = [⟨.put [1] [7] ⟨1, 1⟩, .add 0⟩] ∧
      ¬ ReplicatesOrNothing parkAndOverwrite [1] [7] ⟨1, 1⟩ e := by
  refine ⟨_, _, rfl, rfl, by decide, rfl, ?_⟩
  rintro (⟨-, hall⟩ | ⟨hnil, -⟩)
  · exact absurd (hall _ List.mem_cons_self) (by decide)
  · exact absurd hnil (by simp)

end Avocado.Memtable
