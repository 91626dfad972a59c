/-
# The history of the concurrent store

The history that the steps write is linearizable with respect to the sequential store, and the
memory is always the map that the points of the history lead to (`Inv`).

This holds as long as a `get` that reads a chunk of the slab finds the bytes that were written
there when the entry was made (`authentic`); the host may do what it likes to chunks that are not
read.  A run without the host is authentic (`authentic_of_honest`).
-/
import Avocado.Lib.Lookup
import Avocado.Memtable.Refine

namespace Avocado.Memtable

open Lookup

variable {S : AtomicSet VarKeySizeNode} {cipher : CipherSsl} {m m' : Mem S} {s s' : State S}

/-! ## 1. Chunks that are as they were written -/

/-- The chunk of `metas[p]` holds, in its first `data_size` bytes, what the constructor wrote. -/
def Mem.intact (cipher : CipherSsl) (m : Mem S) (p : Nat) : Bool :=
  match m.metas[p]?, m.slab[p]? with
  | some md, some chunk => chunk.take md.dataSize == (cipher.encrypt md.value).1
  | _, _ => true

/-- The step does not decrypt a chunk that was changed. -/
def authentic (cipher : CipherSsl) (s : State S) : Action → Bool
  | .advance i _ =>
    match s.calls[i]? with
    | some ⟨_, .decrypt p⟩ => s.mem.intact cipher p
    | _ => true
  | _ => true

/-- The tag and the size of an object are those of its value. -/
def Mem.Sealed (cipher : CipherSsl) (m : Mem S) : Prop :=
  ∀ md ∈ m.metas, md.mac = (cipher.encrypt md.value).2 ∧ md.dataSize = md.value.length

/-- **Decryption of an intact chunk** returns the entry. -/
theorem Mem.Sealed.decryptNode_of_intact (hm : m.Sealed cipher) (hc : cipher.Lawful) {p : Nat}
    {md : SealedMeta} {r : RetValue} (hmd : m.metas[p]? = some md)
    (hr : m.decryptNode cipher p = some r) (hi : m.intact cipher p = true) : r = md.ret := by
  obtain ⟨hmac, hsize⟩ := hm md (List.mem_of_getElem? hmd)
  simp only [Mem.decryptNode, hmd, Option.bind_eq_bind, Option.bind_some,
    Option.bind_eq_some_iff] at hr
  obtain ⟨chunk, hchunk, hr⟩ := hr
  simp only [Mem.intact, hmd, hchunk, beq_iff_eq] at hi
  rw [hi, hmac, hc.decrypt_encrypt] at hr
  simp only [Option.some.injEq] at hr
  rw [← hr, hsize]
  rfl

/-- Decryption of a chunk that was changed reports the key as absent. -/
theorem Mem.Sealed.decryptNode_of_not_intact (hm : m.Sealed cipher) (hc : cipher.Authenticates)
    {p : Nat} {r : RetValue} (hr : m.decryptNode cipher p = some r) (hi : ¬ m.intact cipher p = true) :
    r = .absent := by
  simp only [Mem.decryptNode, Option.bind_eq_bind, Option.bind_eq_some_iff] at hr
  obtain ⟨md, hmd, chunk, hchunk, hr⟩ := hr
  obtain ⟨hmac, -⟩ := hm md (List.mem_of_getElem? hmd)
  simp only [Mem.intact, hmd, hchunk, beq_iff_eq] at hi
  rw [hmac, hc _ _ hi] at hr
  exact (Option.some.inj hr).symm

/-! ## 2. What a call has done so far -/

/-- The result that a call has already taken effect with. -/
def Mem.took (m : Mem S) : Pc → Option Res
  | .decrypt p => m.metas[p]?.map fun md => .get md.ret
  | .exit r => some r
  | .done r => some r
  | _ => none

theorem Mem.took_mono {op : Op} {pc : Pc} (hle : m.Le m') (h : m.CallOk op pc) :
    m'.took pc = m.took pc := by
  cases pc with
  | decrypt p =>
    cases op with
    | put => exact absurd h (by simp [Mem.CallOk])
    | get =>
      obtain ⟨md, hmd⟩ := h
      simp only [Mem.took, hmd, hle.metas hmd]
  | _ => rfl

/-- What a step adds to the history: nothing, its call's point, or its call's return with the
result of the point.  The entries that were installed are those of the puts that return true. -/
inductive Noted (m : Mem S) (pc : Pc) (e : Effect S) : Prop
  | silent (hnote : e.note = .silent) (hbefore : m.took pc = none)
      (hafter : e.mem.took e.pc = none) (hdone : ∀ r, e.pc ≠ .done r) (hinst : e.installs = false)
  | point (r : Res) (hnote : e.note = .point r) (hbefore : m.took pc = none)
      (hafter : e.mem.took e.pc = some r) (hdone : ∀ r, e.pc ≠ .done r)
      (hinst : e.installs = true ↔ r = .put true)
  | ret (r : Res) (hnote : e.note = .ret r) (hbefore : m.took pc = some r)
      (hafter : e.pc = .done r) (hdone : ∀ r, pc ≠ .done r) (hinst : e.installs = false)

theorem Next.noted {op : Op} {pc : Pc} {e : Effect S} (h : Next cipher m op pc e)
    (hc : cipher.Lawful) (hm : m.Sealed cipher)
    (hi : ∀ p, pc = .decrypt p → m.intact cipher p = true) : Noted m pc e := by
  cases h with
  | inserted => exact .point _ rfl rfl rfl (by simp) (by simp)
  | found => exact .silent rfl rfl rfl (by simp) rfl
  | loaded => exact .silent rfl rfl rfl (by simp) rfl
  | swapped => exact .point _ rfl rfl rfl (by simp) (by simp)
  | reloaded => exact .silent rfl rfl rfl (by simp) rfl
  | refused => exact .point _ rfl rfl rfl (by simp) (by simp)
  | missing => exact .point _ rfl rfl rfl (by simp) (by simp)
  | located => exact .silent rfl rfl rfl (by simp) rfl
  | read hp hmd => exact .point _ rfl rfl (by simp [Mem.took, hmd]) (by simp) (by simp)
  | @opened key p r hr =>
    have hmd : ∃ md, m.metas[p]? = some md := by
      simp only [Mem.decryptNode, Option.bind_eq_bind, Option.bind_eq_some_iff] at hr
      obtain ⟨md, hmd, -⟩ := hr
      exact ⟨md, hmd⟩
    obtain ⟨md, hmd⟩ := hmd
    have hret : r = md.ret := hm.decryptNode_of_intact hc hmd hr (hi p rfl)
    exact .ret _ rfl (by simp [Mem.took, hmd, hret]) rfl (by simp) rfl
  | left => exact .ret _ rfl rfl rfl (by simp) rfl

theorem Mem.metaOf_createNode {value : List UInt8} {clock : Lamport} {cell : Nat} {md : SealedMeta}
    (hmd : m.metaOf cell = some md) :
    (m.createNode cipher value clock).1.metaOf cell = some md := by
  obtain ⟨p, hp, hmd⟩ := Mem.metaOf_eq_some.mp hmd
  exact Mem.metaOf_eq_some.mpr ⟨p, hp, getElem?_concat_left hmd⟩

theorem Mem.le_createNode (cipher : CipherSsl) (m : Mem S) (value : List UInt8) (clock : Lamport) :
    m.Le (m.createNode cipher value clock).1 :=
  ⟨subset_rfl, getElem?_concat_left, fun hmd => ⟨_, metaOf_createNode hmd, le_refl _⟩⟩

theorem Mem.Ok.createNode {value : List UInt8} {clock : Lamport} (hm : m.Ok) :
    (m.createNode cipher value clock).1.Ok := by
  have hlen : m.metas.length < (m.createNode cipher value clock).1.metas.length := by
    simp [Mem.createNode]
  exact ⟨hm.cell, fun p hp => lt_trans (hm.ptr p hp) hlen, hm.cell_inj, hm.key_inj⟩

theorem Mem.Sealed.createNode {value : List UInt8} {clock : Lamport} (hm : m.Sealed cipher) :
    (m.createNode cipher value clock).1.Sealed cipher := by
  intro md hmd
  rcases List.mem_append.mp hmd with hmd | hmd
  · exact hm md hmd
  · rw [List.mem_singleton.mp hmd]
    exact ⟨rfl, rfl⟩

theorem Mem.Ok.kv_createNode {value : List UInt8} {clock : Lamport} (hm : m.Ok)
    (hS : S.Lawful VarKeySizeNode.lt) : (m.createNode cipher value clock).1.kv = m.kv := by
  refine hm.kv_congr hm.createNode hS rfl fun n hn => ?_
  obtain ⟨md, hmd⟩ := hm.metaOf_isSome hn
  rw [hmd, Mem.metaOf_createNode hmd]

/-- A put starts with the node that it made. -/
theorem Mem.callOk_createNode {key value : List UInt8} {clock : Lamport} :
    (m.createNode cipher value clock).1.CallOk (.put key value clock) (.add m.metas.length) :=
  ⟨_, List.getElem?_concat_length, rfl, rfl⟩

/-! ## 3. The invariant -/

/-- What the history says of call `i`. -/
structure Status (s : State S) (i : Nat) (c : Call) : Prop where
  call : .call i c.op ∈ s.hist
  point : ∀ r, s.mem.took c.pc = some r → .point i c.op r ∈ s.hist
  not_point : s.mem.took c.pc = none → ∀ o r, .point i o r ∉ s.hist
  ret : ∀ r, c.pc = .done r → .ret i c.op r ∈ s.hist
  not_ret : (∀ r, c.pc ≠ .done r) → ∀ o r, .ret i o r ∉ s.hist
  installed : i ∈ s.installed ↔ s.mem.took c.pc = some (.put true)

/-- **The invariant of authentic runs.** -/
structure Inv (cipher : CipherSsl) (s : State S) : Prop where
  mem : s.mem.Ok
  call : ∀ {i : Nat} {c}, s.calls[i]? = some c → s.mem.CallOk c.op c.pc
  enc : s.mem.Sealed cipher
  kv : s.mem.kv = kvObject.after s.hist
  linear : kvObject.Linear s.hist
  fresh : ∀ e ∈ s.hist, e.id < s.calls.length
  inst : ∀ i ∈ s.installed, i < s.calls.length
  status : ∀ {i : Nat} {c}, s.calls[i]? = some c → Status s i c

/-- A call whose events do not include the new ones keeps its status. -/
theorem Status.frame {i : Nat} {c : Call} {es : List (History.Event Op Res)} (h : Status s i c)
    (hle : s.mem.Le s'.mem) (hcall : s.mem.CallOk c.op c.pc) (hhist : s'.hist = s.hist ++ es)
    (hne : ∀ e ∈ es, e.id ≠ i) (hinst : i ∈ s'.installed ↔ i ∈ s.installed) : Status s' i c := by
  have hmem : ∀ e : History.Event Op Res, e.id = i → (e ∈ s'.hist ↔ e ∈ s.hist) := by
    intro e he
    rw [hhist, List.mem_append, or_iff_left fun hin => hne e hin he]
  have htook : s'.mem.took c.pc = s.mem.took c.pc := Mem.took_mono hle hcall
  constructor
  · exact (hmem _ rfl).mpr h.call
  · intro r hr
    exact (hmem _ rfl).mpr (h.point r (htook ▸ hr))
  · intro hnone o r hin
    exact h.not_point (htook ▸ hnone) o r ((hmem _ rfl).mp hin)
  · intro r hr
    exact (hmem _ rfl).mpr (h.ret r hr)
  · intro hdone o r hin
    exact h.not_ret hdone o r ((hmem _ rfl).mp hin)
  · rw [hinst, h.installed, htook]

theorem inv_init (hS : S.Lawful VarKeySizeNode.lt) : Inv cipher (State.init S) where
  mem := by
    have hempty : ∀ n : VarKeySizeNode, n ∉ S.elems S.empty := by
      intro n
      rw [hS.elems_empty]
      exact Set.notMem_empty n
    exact ⟨fun n hn => absurd hn (hempty n), fun p hp => absurd hp List.not_mem_nil,
      fun n hn => absurd hn (hempty n), fun n hn => absurd hn (hempty n)⟩
  call := by
    intro i c hc
    exact absurd hc (by simp [State.init])
  enc := by
    intro md hmd
    exact absurd hmd List.not_mem_nil
  kv := by
    ext1
    funext key
    refine Mem.kv_find_none hS fun n hn => ?_
    have hempty : n ∈ S.elems S.empty := hn
    rw [hS.elems_empty] at hempty
    exact absurd hempty (Set.notMem_empty n)
  linear := History.Object.linear_nil
  fresh := by
    intro e he
    exact absurd he List.not_mem_nil
  inst := by
    intro i hi
    exact absurd hi List.not_mem_nil
  status := by
    intro i c hc
    exact absurd hc (by simp [State.init])

/-! ## 4. New calls, and the host -/

namespace Inv

theorem invoke (h : Inv cipher s) {mem : Mem S} {op : Op} {pc : Pc} (hok : mem.Ok)
    (hle : s.mem.Le mem) (henc : mem.Sealed cipher) (hkv : mem.kv = s.mem.kv)
    (hcall : mem.CallOk op pc) (htook : mem.took pc = none) (hdone : ∀ r, pc ≠ .done r) :
    Inv cipher (s.invoke mem op pc) := by
  have hnew : ∀ e ∈ s.hist, e.id ≠ s.calls.length := by
    intro e he heq
    exact absurd (h.fresh e he) (by omega)
  constructor
  · exact hok
  · intro i c hc
    rcases getElem?_concat hc with hc | ⟨rfl, rfl⟩
    · exact (h.call hc).mono hle
    · exact hcall
  · exact henc
  · simp only [State.invoke, History.Object.after_concat, History.Object.next]
    rw [hkv, h.kv]
  · exact History.Object.linear_concat.mpr ⟨h.linear, hnew⟩
  · intro e he
    simp only [State.invoke, List.length_append, List.length_singleton]
    rcases List.mem_append.mp he with he | he
    · exact Nat.lt_succ_of_lt (h.fresh e he)
    · rw [List.mem_singleton.mp he]
      exact Nat.lt_succ_self _
  · intro i hi
    simp only [State.invoke, List.length_append, List.length_singleton]
    exact Nat.lt_succ_of_lt (h.inst i hi)
  · intro i c hc
    rcases getElem?_concat hc with hc | ⟨rfl, rfl⟩
    · have hi := (List.getElem?_eq_some_iff.mp hc).1
      refine (h.status hc).frame hle (h.call hc) rfl ?_ Iff.rfl
      intro e he heq
      rw [List.mem_singleton.mp he] at heq
      exact absurd heq (by simp [History.Event.id]; omega)
    · -- the new call has only its first event
      have hno : ∀ e : History.Event Op Res, e.id = s.calls.length →
          e ∈ (s.invoke mem op pc).hist → e = .call s.calls.length op := by
        intro e he hin
        rcases List.mem_append.mp hin with hin | hin
        · exact absurd he (hnew e hin)
        · exact List.mem_singleton.mp hin
      constructor
      · exact List.mem_append_right _ (List.mem_singleton.mpr rfl)
      · intro r hr
        exact absurd (htook.symm.trans hr) (by simp)
      · intro _ o r hin
        exact absurd (hno _ rfl hin) (by simp)
      · intro r hr
        exact absurd hr (hdone r)
      · intro _ o r hin
        exact absurd (hno _ rfl hin) (by simp)
      · constructor
        · intro hi
          exact absurd (h.inst _ hi) (by omega)
        · intro hr
          exact absurd (htook.symm.trans hr) (by simp)

/-- A new node does not change the map. -/
theorem createNode (h : Inv cipher s) (hS : S.Lawful VarKeySizeNode.lt) (key value : List UInt8)
    (clock : Lamport) :
    Inv cipher (s.invoke (s.mem.createNode cipher value clock).1 (.put key value clock)
      (.add s.mem.metas.length)) :=
  h.invoke h.mem.createNode (Mem.le_createNode cipher s.mem value clock) h.enc.createNode
    (h.mem.kv_createNode hS) Mem.callOk_createNode rfl (by simp)

theorem overwrite (h : Inv cipher s) (p : Nat) (bytes : List UInt8) :
    Inv cipher (s.overwrite p bytes) := by
  have hle : s.mem.Le (s.overwrite p bytes).mem :=
    ⟨subset_rfl, id, fun hmd => ⟨_, hmd, le_refl _⟩⟩
  refine ⟨⟨h.mem.cell, h.mem.ptr, h.mem.cell_inj, h.mem.key_inj⟩, fun hc => (h.call hc).mono hle,
    h.enc, h.kv, h.linear, h.fresh, h.inst, fun hc => ?_⟩
  have hhist : (s.overwrite p bytes).hist = s.hist ++ [] := by simp [State.overwrite]
  exact (h.status hc).frame hle (h.call hc) hhist (by simp) Iff.rfl

/-! ## 5. Steps of a call -/

/-- The status of a call after its own step. -/
theorem status_apply (h : Inv cipher s) {i : Nat} {c : Call} {e : Effect S}
    (hc : s.calls[i]? = some c) (hnoted : Noted s.mem c.pc e) :
    Status (s.apply i c.op e) i ⟨c.op, e.pc⟩ := by
  have hst := h.status hc
  have hcall : .call i c.op ∈ (s.apply i c.op e).hist := List.mem_append_left _ hst.call
  cases hnoted with
  | silent hnote hbefore hafter hdone hinst =>
    have hhist : (s.apply i c.op e).hist = s.hist := by simp [State.apply, hnote, Note.events]
    have hdone' : ∀ r, c.pc ≠ .done r := by
      intro r hr
      exact absurd hbefore (by simp [hr, Mem.took])
    refine ⟨hcall, fun r hr => absurd (hafter.symm.trans hr) (by simp), fun _ => ?_,
      fun r hr => absurd hr (hdone r), fun _ => ?_, ?_⟩
    · rw [hhist]; exact hst.not_point hbefore
    · rw [hhist]; exact hst.not_ret hdone'
    · have hno : ¬ i ∈ s.installed := by
        rw [hst.installed, hbefore]
        simp
      simp only [State.apply, hinst, Bool.false_eq_true, if_false, hafter]
      simp [hno]
  | point r hnote hbefore hafter hdone hinst =>
    have hhist : (s.apply i c.op e).hist = s.hist ++ [.point i c.op r] := by
      simp [State.apply, hnote, Note.events]
    have hdone' : ∀ r, c.pc ≠ .done r := by
      intro r hr
      exact absurd hbefore (by simp [hr, Mem.took])
    refine ⟨hcall, fun r' hr => ?_, fun hr => absurd (hr.symm.trans hafter) (by simp),
      fun r' hr => absurd hr (hdone r'), fun _ o r' hin => ?_, ?_⟩
    · have heq : r = r' := Option.some.inj (hafter.symm.trans hr)
      rw [hhist, heq]
      simp
    · rw [hhist] at hin
      rcases List.mem_append.mp hin with hin | hin
      · exact hst.not_ret hdone' o r' hin
      · exact absurd (List.mem_singleton.mp hin) (by simp)
    · have hno : ¬ i ∈ s.installed := by
        rw [hst.installed, hbefore]
        simp
      simp only [State.apply, hafter, Option.some.injEq, ← hinst]
      by_cases hb : e.installs = true
      · simp [hb]
      · simp [hb, hno]
  | ret r hnote hbefore hafter hdone hinst =>
    have hhist : (s.apply i c.op e).hist = s.hist ++ [.ret i c.op r] := by
      simp [State.apply, hnote, Note.events]
    have htook : (s.apply i c.op e).mem.took e.pc = some r := by simp [hafter, Mem.took]
    refine ⟨hcall, fun r' hr => ?_, fun hr => absurd (hr.symm.trans htook) (by simp),
      fun r' hr => ?_, fun hr => absurd hafter (hr r), ?_⟩
    · have heq : r = r' := Option.some.inj (htook.symm.trans hr)
      exact List.mem_append_left _ (hst.point r' (heq ▸ hbefore))
    · have heq : r = r' := by simpa [hafter] using hr
      rw [hhist, heq]
      simp
    · simp only [State.apply, hinst, Bool.false_eq_true, if_false] at htook ⊢
      rw [hst.installed, hbefore, htook]

/-- The history after a step of a call. -/
theorem linear_apply (h : Inv cipher s) {i : Nat} {c : Call} {e : Effect S}
    (hc : s.calls[i]? = some c) (hnoted : Noted s.mem c.pc e)
    (hsim : match e.note with
      | .point r => kvObject.apply s.mem.kv c.op = (e.mem.kv, r)
      | _ => e.mem.kv = s.mem.kv) :
    kvObject.Linear (s.apply i c.op e).hist ∧
      e.mem.kv = kvObject.after (s.apply i c.op e).hist := by
  have hst := h.status hc
  cases hnoted with
  | silent hnote =>
    rw [hnote] at hsim
    simp only [State.apply, hnote, Note.events, List.append_nil]
    exact ⟨h.linear, hsim.trans h.kv⟩
  | point r hnote hbefore =>
    rw [hnote] at hsim
    simp only [State.apply, hnote, Note.events, History.Object.after_concat, History.Object.next]
    rw [h.kv] at hsim
    refine ⟨History.Object.linear_concat.mpr ⟨h.linear, hst.call, hst.not_point hbefore, ?_⟩, ?_⟩
    · rw [hsim]
    · rw [hsim]
  | ret r hnote hbefore hafter hdone =>
    rw [hnote] at hsim
    simp only [State.apply, hnote, Note.events, History.Object.after_concat, History.Object.next]
    exact ⟨History.Object.linear_concat.mpr ⟨h.linear, hst.point r hbefore, hst.not_ret hdone⟩,
      hsim.trans h.kv⟩

theorem id_of_mem_events {i : Nat} {op : Op} {n : Note} {e : History.Event Op Res}
    (h : e ∈ n.events i op) : e.id = i := by
  cases n with
  | silent => exact absurd h List.not_mem_nil
  | point r => rw [List.mem_singleton.mp h]; rfl
  | ret r => rw [List.mem_singleton.mp h]; rfl

theorem apply (h : Inv cipher s) (hS : S.Lawful VarKeySizeNode.lt) (hc : cipher.Lawful) {i : Nat}
    {c : Call} {e : Effect S} (hi : s.calls[i]? = some c) (hnext : Next cipher s.mem c.op c.pc e)
    (hauth : ∀ p, c.pc = .decrypt p → s.mem.intact cipher p = true) :
    Inv cipher (s.apply i c.op e) := by
  have hcall := h.call hi
  have hlt := (List.getElem?_eq_some_iff.mp hi).1
  have hle : s.mem.Le e.mem := hnext.le hcall
  have hnoted := hnext.noted hc h.enc hauth
  obtain ⟨hlin, hkv⟩ := h.linear_apply hi hnoted (hnext.refines hS h.mem hcall)
  constructor
  · exact hnext.ok h.mem hcall
  · intro j d hd
    rcases getElem?_set_cases hd with ⟨rfl, rfl⟩ | ⟨-, hd⟩
    · exact hnext.callOk h.mem hcall
    · exact (h.call hd).mono hle
  · intro md hmd
    have hmd' : md ∈ e.mem.metas := hmd
    rw [hnext.metas_eq] at hmd'
    exact h.enc md hmd'
  · exact hkv
  · exact hlin
  · intro x hx
    simp only [State.apply, List.length_set]
    rcases List.mem_append.mp hx with hx | hx
    · exact h.fresh x hx
    · rw [id_of_mem_events hx]
      exact hlt
  · intro j hj
    simp only [State.apply, List.length_set] at hj ⊢
    split at hj
    · rcases List.mem_append.mp hj with hj | hj
      · exact h.inst j hj
      · rw [List.mem_singleton.mp hj]
        exact hlt
    · exact h.inst j hj
  · intro j d hd
    rcases getElem?_set_cases hd with ⟨rfl, rfl⟩ | ⟨hne, hd⟩
    · exact h.status_apply hi hnoted
    · refine (h.status hd).frame hle (h.call hd) rfl ?_ ?_
      · intro x hx heq
        exact hne (heq.symm.trans (id_of_mem_events hx))
      · simp only [State.apply]
        split
        · rw [List.mem_append, List.mem_singleton, or_iff_left hne]
        · exact Iff.rfl

/-- **An authentic step keeps the invariant.** -/
theorem step (h : Inv cipher s) (hS : S.Lawful VarKeySizeNode.lt) (hc : cipher.Lawful) {a : Action}
    (ha : authentic cipher s a = true) (hstep : step cipher s a = some s') : Inv cipher s' := by
  rcases step_cases hstep with ⟨key, value, clock, -, rfl⟩ | ⟨key, -, rfl⟩ |
    ⟨i, spurious, c, e, rfl, hi, he, rfl⟩ | ⟨p, bytes, -, rfl⟩
  · exact h.createNode hS key value clock
  · exact h.invoke h.mem (Mem.Le.refl _) h.enc rfl trivial rfl (by simp)
  · refine h.apply hS hc hi (next_cases hS he) fun p hp => ?_
    obtain ⟨op, pc⟩ := c
    subst hp
    simpa [authentic, hi] using ha
  · exact h.overwrite p bytes

end Inv

/-! ## 6. Runs -/

/-- A run of the store with a host. -/
abbrev Run (cipher : CipherSsl) : State S → State S → Prop :=
  Relation.ReflTransGen (Run.Moves (step cipher))

/-- A run in which no chunk is changed that is read later. -/
abbrev AuthenticRun (cipher : CipherSsl) : State S → State S → Prop :=
  Relation.ReflTransGen (Run.Moves (Run.guard (authentic cipher) (step cipher)))

/-- A run without the host. -/
abbrev HonestRun (cipher : CipherSsl) : State S → State S → Prop :=
  Relation.ReflTransGen (Run.Moves (Run.guard honest (step cipher)))

theorem inv_of_run (hS : S.Lawful VarKeySizeNode.lt) (hc : cipher.Lawful) {s₀ : State S}
    (h0 : Inv cipher s₀) (h : AuthenticRun cipher s₀ s) : Inv cipher s := by
  refine Run.invariant (I := Inv cipher) (fun x y hx hr => ?_) h h0
  obtain ⟨a, ha⟩ := hr
  obtain ⟨hauth, hstep⟩ := Run.guard_eq_some.mp ha
  exact hx.step hS hc hauth hstep

end Avocado.Memtable
