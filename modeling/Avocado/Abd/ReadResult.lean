/-
# What `RetValue` answers

`RetValue` starts from the local entry and goes through the responses.  A response with a greater
clock than the one it has is a record: `buf.get_size()` bytes of its array are copied to the front
of `tmp`, and the span that is kept from then on is `tmp.get_key()`.  Two things are not as they
look.  `get_size` counts key and value without the header, so the copy starts with the header and
ends 16 bytes before the end of the value; and `get_key` is the KEY range of the copy, the key and
its clock, not the value.

`readResponses_eq` is the whole reduction in these terms: the span is the local one when no
response is a record, and otherwise what lies behind the header of `tmp` after the records have
been copied one over the other.
-/
import Avocado.Abd.Responses
import Avocado.Lib.Records

namespace Avocado

open Bytes Records

/-! ## 1. The result of a get -/

/-- What `RetValue` passes to `get_ret`, the clock it selected, and the write-back it sends. -/
structure ReadResult where
  clock : Lamport
  buf : Span
  writeBack : Option Msg
  deriving DecidableEq, Repr

/-- `req_conts_impl<RetValue>`, after `kv.get`. -/
def retValue (ctx : ReplicaContext) (maxPackageSize : Nat) (node : Node) (localResp : RetValue) :
    Option ReadResult := do
  let st ← readResponses ctx maxPackageSize node localResp
  if !consens st ctx.nMsgs && st.max.2.size > 0 then
    let msg ← writeBackMsg node st.max
    let wire ← msg.frame
    some ⟨st.max.1, st.max.2, some wire⟩
  else some ⟨st.max.1, st.max.2, none⟩

/-- **`RetValue` answers with it**: the get reports this clock and this span, and the only message
that the step may send is this write-back. -/
theorem advance_retValueGot {Srv : Type} [DecidableEq Srv] {cfg : Cfg Srv} {s s' : State Srv}
    {x : Srv} {th c : Nat} {loc : RetValue} (hpc : s.pc x th = .retValueGot c loc)
    (h : step cfg s (.advance x th) = some s') :
    ∃ ctx node r, s.ctxs[c]? = some ctx ∧ ctx.rep.data = some node ∧
      retValue ctx.rep cfg.maxPackageSize node loc = some r ∧
      (∃ log, s'.log = log ++ [.select ctx.op r.clock, .getRet ctx.op r.buf]) ∧
      ∀ p ∈ s'.net, p ∈ s.net ∨ ∃ wire dst, r.writeBack = some wire ∧
        p = .request s.ctxs.length dst .putReplica ⟨true, wire⟩ := by
  simp only [step, State.advance, hpc, Option.bind_eq_bind, Option.bind_eq_some_iff] at h
  obtain ⟨ctx, hc, node, hn, st, hst, h⟩ := h
  split at h
  · rename_i hwb
    simp only [Option.bind_eq_some_iff, Option.some.injEq] at h
    obtain ⟨msg, hmsg, s₁, hs, rfl⟩ := h
    obtain ⟨v, -, he⟩ := writeBackMsg_eq_some hmsg
    have hframe := Msg.frame_of_encode he
    refine ⟨ctx, node, ⟨st.max.1, st.max.2, some msg⟩, hc, hn, ?_, ⟨s₁.log, by simp⟩, ?_⟩
    · simp only [retValue, hst, Option.bind_eq_bind, Option.bind_some, if_pos hwb, hmsg, hframe]
    · intro p hp
      simp only [State.setPc_net, State.note_net, State.addTraces_net] at hp
      rcases send_cases hs with ⟨reps, wire, -, hw, rfl⟩ | ⟨-, rfl⟩
      · rw [hframe, Option.some.injEq] at hw
        rcases List.mem_append.mp hp with hp | hp
        · exact Or.inl hp
        · obtain ⟨dst, -, rfl⟩ := List.mem_map.mp hp
          exact Or.inr ⟨msg, dst, rfl, by rw [hw]⟩
      · exact Or.inl hp
  · rename_i hwb
    rw [Option.bind_some, Option.some.injEq] at h
    subst h
    refine ⟨ctx, node, ⟨st.max.1, st.max.2, none⟩, hc, hn, ?_, ⟨s.log, by simp⟩,
      fun p hp => Or.inl hp⟩
    simp only [retValue, hst, Option.bind_eq_bind, Option.bind_some, if_neg hwb]

/-! ## 2. One response -/

/-- What is copied of a response: `get_size()` bytes from the start of its array. -/
def copied (key : List UInt8) (e : Lamport × List UInt8) : List UInt8 :=
  (image (key ++ e.1.toBytes) e.2 []).take (key.length + 8 + e.2.length)

theorem length_copied (key : List UInt8) (e : Lamport × List UInt8) :
    (copied key e).length = key.length + 8 + e.2.length := by
  rw [copied, List.length_take, length_image, List.length_append, Lamport.length_toBytes]
  omega

/-- `get_key()` of the array that the copy is in. -/
def keySpan (key : List UInt8) (tmp : Msg) : Span :=
  ⟨key.length + 8, some (tmp.ptr.drop encodedMsgSize)⟩

/-- The lambda of `RetValue` on a response that carries the entry `e`. -/
def pickEntry (key : List UInt8) (st : ReadState) (e : Lamport × List UInt8) : Option ReadState :=
  let counts := bump st.counts e.1
  if e.1 > st.max.1 then do
    let tmp ← st.tmp.store 0 (copied key e)
    some ⟨(e.1, keySpan key tmp), counts, tmp⟩
  else some { st with counts := counts }

/-- The copy reaches over the header's first field, so `get_key` finds the size of the key. -/
theorem getKey_of_store {key : List UInt8} {e : Lamport × List UInt8} {tmp tmp' : Msg}
    (hfits : key.length + 8 + e.2.length < 2 ^ 64) (h : tmp.store 0 (copied key e) = some tmp') :
    tmp'.getKey = some (keySpan key tmp') := by
  simp only [Msg.store, Option.pmap_eq_some_iff] at h
  obtain ⟨p, hp, hs, rfl⟩ := h
  unfold Bytes.store at hs
  split at hs
  · rename_i hle
    have hp : p = copied key e ++ tmp.ptr.drop (copied key e).length := by simpa using hs.symm
    have hlen := length_copied key e
    have htake : (copied key e).take 8 = leBytes 8 (key.length + 8) := by
      rw [copied, List.take_take, min_eq_left (by omega), image, List.append_assoc,
        List.take_left' (by simp), List.length_append, Lamport.length_toBytes]
    have hl : load p 0 8 = some (leBytes 8 (key.length + 8)) := by
      rw [load, if_pos (by rw [hp, List.length_append]; omega), List.drop_zero, hp,
        List.take_append_of_le_length (by omega), htake]
    simp only [Msg.getKey, Msg.getKeySize, hl, Option.map_some,
      leNat_leBytes_of_lt (show key.length + 8 < 256 ^ 8 by omega), Option.bind_eq_bind,
      Option.bind_some, keySpan]
  · exact absurd hs (by simp)

/-- **One response**, whatever the array holds behind it. -/
theorem pickMax_eq {key junk : List UInt8} {e : Lamport × List UInt8} {st : ReadState} {buf : Msg}
    (h : buf.ptr = image (key ++ e.1.toBytes) e.2 junk) :
    pickMax (KeyAccess.addMetaSize key.length) st buf = pickEntry key st e := by
  have hlen : (key ++ e.1.toBytes).length + e.2.length = key.length + 8 + e.2.length := by
    rw [List.length_append, Lamport.length_toBytes]
  have hclock : KeyAccess.getLamport (KeyAccess.addMetaSize key.length)
      (some (key ++ e.1.toBytes ++ e.2 ++ junk)) = some e.1 :=
    KeyAccess.getLamport_key rfl
  have hload : load buf.ptr 0 (key.length + 8 + e.2.length) = some (copied key e) := by
    have himg : buf.ptr = image (key ++ e.1.toBytes) e.2 [] ++ junk := by
      rw [h, image_append_junk rfl, List.nil_append]
    have hle : key.length + 8 + e.2.length ≤ (image (key ++ e.1.toBytes) e.2 []).length := by
      rw [length_image, hlen]
      omega
    rw [load, if_pos (by rw [himg, List.length_append]; omega), List.drop_zero, himg,
      List.take_append_of_le_length hle, copied]
  have hfits := Msg.image_fits h
  rw [hlen] at hfits
  simp only [pickMax, Msg.getKey_image h, Option.bind_eq_bind, Option.bind_some, hclock,
    Msg.getSize_image h, hlen, hload, pickEntry]
  split
  · cases hs : st.tmp.store 0 (copied key e) with
    | none => rfl
    | some tmp =>
      simp only [Option.bind_some, getKey_of_store hfits hs]
  · rfl

/-! ## 3. All responses -/

/-- Copying the records into `tmp`, one over the other. -/
def lay (key : List UInt8) (recs : List (Lamport × List UInt8)) (tmp : Msg) : Option Msg :=
  recs.foldlM (fun tmp e => tmp.store 0 (copied key e)) tmp

/-- What is kept when the records have been copied. -/
def kept (key : List UInt8) (loc : Lamport × Span) (recs : List (Lamport × List UInt8))
    (tmp : Msg) : Lamport × Span :=
  match recs.getLast? with
  | none => loc
  | some e => (e.1, keySpan key tmp)

/-- **The fold of `RetValue`**: the records are copied and every clock is counted. -/
theorem foldlM_pickEntry (key : List UInt8) (es : List (Lamport × List UInt8)) (st : ReadState) :
    es.foldlM (pickEntry key) st =
      (lay key (records Prod.fst st.max.1 es) st.tmp).map fun tmp =>
        ⟨kept key st.max (records Prod.fst st.max.1 es) tmp,
          (es.map Prod.fst).foldl bump st.counts, tmp⟩ := by
  induction es generalizing st with
  | nil => rfl
  | cons e es ih =>
    rw [List.foldlM_cons]
    by_cases hlt : st.max.1 < e.1
    · rw [records_cons_of_lt hlt, lay, List.foldlM_cons]
      simp only [pickEntry, if_pos hlt, Option.bind_eq_bind]
      cases hs : st.tmp.store 0 (copied key e) with
      | none => rfl
      | some tmp =>
        simp only [Option.bind_some]
        rw [ih, lay]
        cases hrecs : records Prod.fst e.1 es with
        | nil => rfl
        | cons r rs =>
          simp only [kept, List.getLast?_cons_cons, List.map_cons, List.foldl_cons]
          cases hl : (r :: rs).getLast? with
          | none => exact absurd (List.getLast?_eq_none_iff.mp hl) (by simp)
          | some _ => rfl
    · rw [records_cons_of_le (not_lt.mp hlt)]
      simp only [pickEntry, if_neg hlt, Option.bind_eq_bind, Option.bind_some]
      rw [ih]
      rfl

/-- **What `RetValue` makes of its responses.** -/
theorem readResponses_eq {ctx : ReplicaContext} (maxPackageSize : Nat) {node : Node}
    (loc : RetValue) {es : List (Lamport × List UInt8)} (hs : ctx.Sized)
    (hform : List.Forall₂ (ValueFor node.key) ctx.cache es) :
    readResponses ctx maxPackageSize node loc =
      ((Msg.alloc maxPackageSize).bind (lay node.key (records Prod.fst loc.lamport es))).map
        fun tmp => ⟨kept node.key (loc.lamport, loc.toSpan) (records Prod.fst loc.lamport es) tmp,
          (es.map Prod.fst).foldl bump [], tmp⟩ := by
  simp only [readResponses, Option.bind_eq_bind, Option.map_bind]
  congr 1
  funext tmp
  rw [ReplicaContext.reduceResp_eq (g := pickEntry node.key) hs hform
    (fun _ _ _ _ _ he hmsg => pickMax_eq (hmsg.trans (image_append_junk he))), foldlM_pickEntry]
  rfl

/-! ## 4. Room in `tmp` -/

section Room

variable {key : List UInt8} {recs : List (Lamport × List UInt8)} {tmp tmp' : Msg}

/-- Records that fit in `tmp` can be copied into it. -/
theorem exists_lay (recs : List (Lamport × List UInt8)) (tmp : Msg)
    (h : ∀ e ∈ recs, key.length + 8 + e.2.length ≤ tmp.ptr.length) :
    ∃ tmp', lay key recs tmp = some tmp' ∧ tmp'.ptr.length = tmp.ptr.length := by
  induction recs generalizing tmp with
  | nil => exact ⟨tmp, rfl, rfl⟩
  | cons e recs ih =>
    have hfit : 0 + (copied key e).length ≤ tmp.ptr.length := by
      rw [length_copied, Nat.zero_add]
      exact h e List.mem_cons_self
    obtain ⟨tmp₁, hstore, hptr⟩ := Msg.exists_store tmp hfit
    have hlen : tmp₁.ptr.length = tmp.ptr.length := by
      rw [hptr]
      simp
      omega
    obtain ⟨tmp', hlay, hlen'⟩ := ih tmp₁ fun d hd => by
      rw [hlen]
      exact h d (List.mem_cons_of_mem _ hd)
    refine ⟨tmp', ?_, hlen'.trans hlen⟩
    rw [lay, List.foldlM_cons, hstore]
    exact hlay

/-- The key range of `tmp` can be read. -/
theorem exists_keySpan_bytes (key : List UInt8) (tmp : Msg) (h : 24 + key.length ≤ tmp.ptr.length) :
    ∃ v, (keySpan key tmp).bytes = some v ∧ v.length = key.length + 8 := by
  have hle : 0 + (key.length + 8) ≤ (tmp.ptr.drop encodedMsgSize).length := by
    rw [List.length_drop, encodedMsgSize]
    omega
  refine ⟨_, if_pos hle, ?_⟩
  rw [List.length_take, List.drop_zero]
  simp only [keySpan]
  omega

/-- A store is inside the array and keeps its length. -/
theorem length_of_store {off : Nat} {bs : List UInt8} (h : tmp.store off bs = some tmp') :
    off + bs.length ≤ tmp.ptr.length ∧ tmp'.ptr.length = tmp.ptr.length := by
  simp only [Msg.store, Option.pmap_eq_some_iff] at h
  obtain ⟨p, hp, hs, rfl⟩ := h
  refine ⟨?_, store_length hs⟩
  unfold Bytes.store at hs
  split at hs
  · assumption
  · exact absurd hs (by simp)

/-- What has been copied did fit, and `tmp` keeps its length. -/
theorem fits_of_lay (h : lay key recs tmp = some tmp') :
    (∀ e ∈ recs, key.length + 8 + e.2.length ≤ tmp.ptr.length) ∧
      tmp'.ptr.length = tmp.ptr.length := by
  induction recs generalizing tmp with
  | nil =>
    rw [lay, List.foldlM_nil, Option.pure_def, Option.some.injEq] at h
    exact ⟨by simp, by rw [h]⟩
  | cons e recs ih =>
    rw [lay, List.foldlM_cons, Option.bind_eq_bind, Option.bind_eq_some_iff] at h
    obtain ⟨tmp₁, hstore, h⟩ := h
    obtain ⟨hin, hlen⟩ := length_of_store hstore
    obtain ⟨hrest, hlen'⟩ := ih h
    rw [length_copied, Nat.zero_add] at hin
    refine ⟨List.forall_mem_cons.mpr ⟨hin, fun d hd => ?_⟩, hlen'.trans hlen⟩
    rw [← hlen]
    exact hrest d hd

end Room

end Avocado
