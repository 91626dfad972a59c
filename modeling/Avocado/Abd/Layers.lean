/-
# The two levels of the replicated store

What the servers do over their memtables is a run of `Abd/System.lean`, with the same history and
the same stores: a call of a store is one step, at the moment at which it takes effect.  Until then
a handler's request is still in flight, and from then on its answer is; the order of the packets is
the only difference.
-/
import Avocado.Abd.Availability
import Avocado.Abd.OverMemtable
import Avocado.Memtable.Linearizable

namespace Avocado.OverMemtable

open Lookup

open Memtable (Mem Op Res kvObject)

variable {S : AtomicSet VarKeySizeNode} {Srv : Type}

/-! ## 1. What a call does to its store -/

section Memory

variable {cipher : CipherSsl} {m m' : Mem S}

/-- A memory that is in order, and has only grown. -/
structure Grows (cipher : CipherSsl) (m m' : Mem S) : Prop where
  ok : m'.Ok
  enc : m'.Sealed cipher
  le : m.Le m'

/-- A call that was made. -/
structure Entered (cipher : CipherSsl) (m : Mem S) (op : Op) (m' : Mem S) (call : Memtable.Call) :
    Prop where
  grows : Grows cipher m m'
  kv : m'.kv = m.kv
  op : call.op = op
  fits : m'.CallOk call.op call.pc
  took : m'.took call.pc = none

theorem took_of_result {call : Memtable.Call} {res : Res} (h : result call = some res) :
    m.took call.pc = some res := by
  unfold result at h
  split at h
  · rename_i r hpc
    rw [hpc, Mem.took]
    exact h
  · exact absurd h (by simp)

theorem entered (hS : S.Lawful VarKeySizeNode.lt) (hok : m.Ok) (henc : m.Sealed cipher) (op : Op) :
    Entered cipher m op (enter cipher m op).1 (enter cipher m op).2 := by
  cases op with
  | put key value clock =>
    exact ⟨⟨hok.createNode, henc.createNode, Mem.le_createNode _ _ _ _⟩, hok.kv_createNode hS, rfl,
      Mem.callOk_createNode, rfl⟩
  | get key => exact ⟨⟨hok, henc, .refl m⟩, rfl, rfl, trivial, rfl⟩

/-- A step of a call. -/
structure Advanced (cipher : CipherSsl) (m : Mem S) (spurious : Bool) (call : Memtable.Call)
    (m' : Mem S) (call' : Memtable.Call) : Prop where
  grows : Grows cipher m m'
  op : call'.op = call.op
  fits : m'.CallOk call'.op call'.pc
  /-- It changes nothing, or is the one at which the sequential operation is done. -/
  effect : (m'.took call'.pc = m.took call.pc ∧ m'.kv = m.kv) ∨
    (takesEffect cipher m spurious call = true ∧ m.took call.pc = none ∧
      ∃ r, m'.took call'.pc = some r ∧ kvObject.apply m.kv call.op = (m'.kv, r))

theorem advanced (hS : S.Lawful VarKeySizeNode.lt) (hc : cipher.Lawful) (hok : m.Ok)
    (henc : m.Sealed cipher) {spurious : Bool} {call call' : Memtable.Call}
    (hfits : m.CallOk call.op call.pc) (hintact : intact cipher m call = true)
    (h : advance cipher m spurious call = some (m', call')) :
    Advanced cipher m spurious call m' call' := by
  obtain ⟨e, he, heq⟩ := Option.map_eq_some_iff.mp h
  obtain ⟨rfl, rfl⟩ := Prod.mk.inj heq
  have hnext := Memtable.next_cases hS he
  have hrefines := hnext.refines hS hok hfits
  have hnoted := hnext.noted hc henc fun p hp => by simpa only [intact, hp] using hintact
  refine ⟨⟨hnext.ok hok hfits, ?_, hnext.le hfits⟩, rfl, hnext.callOk hok hfits, ?_⟩
  · rw [Mem.Sealed, hnext.metas_eq]
    exact henc
  · cases hnoted with
    | silent hnote hbefore hafter =>
      rw [hnote] at hrefines
      exact Or.inl ⟨hafter.trans hbefore.symm, hrefines⟩
    | point r hnote hbefore hafter =>
      rw [hnote] at hrefines
      refine Or.inr ⟨?_, hbefore, r, hafter, hrefines⟩
      simp only [takesEffect, he, Option.map_some, hnote]
    | ret r hnote hbefore hafter =>
      rw [hnote] at hrefines
      refine Or.inl ⟨?_, hrefines⟩
      rw [hbefore]
      change e.mem.took e.pc = some r
      rw [hafter, Mem.took]

end Memory

/-! ## 2. The invariant -/

variable {cipher : CipherSsl} {f : State S Srv}

/-- The stores are in order, and every call fits its store and its caller. -/
structure Inv (cipher : CipherSsl) (f : State S Srv) : Prop where
  ok : ∀ x, (f.mem x).Ok
  enc : ∀ x, (f.mem x).Sealed cipher
  handler : ∀ h ∈ f.handlers, ∃ data, getData h.buf = some data ∧
    handlerCall h.type data = some h.call.op ∧ (f.mem h.dst).CallOk h.call.op h.call.pc
  inside : ∀ x th call, f.inside x th = some call →
    threadCall f.abd x th = some call.op ∧ (f.mem x).CallOk call.op call.pc

theorem Inv.init (hS : S.Lawful VarKeySizeNode.lt) : Inv cipher (State.init S Srv) where
  ok _ := (Memtable.inv_init hS : Memtable.Inv cipher _).mem
  enc _ := (Memtable.inv_init hS : Memtable.Inv cipher _).enc
  handler h hh := absurd hh (by simp [State.init])
  inside x th call hin := absurd hin (by simp [State.init])

/-- A thread's place and the contexts are all that its call depends on. -/
theorem threadCall_congr {s s' : Avocado.State Srv} {x : Srv} {th : Nat}
    (hpc : s'.pc x th = s.pc x th) (hctxs : s'.ctxs = s.ctxs) :
    threadCall s' x th = threadCall s x th := by
  rw [threadCall, threadCall, hpc, hctxs]

section Frame

variable [DecidableEq Srv] {x : Srv} {m : Mem S}

theorem setMem_mem_self : (f.setMem x m).mem x = m := Function.update_self ..

theorem setMem_mem_of_ne {y : Srv} (h : y ≠ x) : (f.setMem x m).mem y = f.mem y :=
  Function.update_of_ne h ..

theorem Inv.le_setMem (hg : Grows cipher (f.mem x) m) (y : Srv) :
    (f.mem y).Le ((f.setMem x m).mem y) := by
  by_cases hy : y = x
  · subst hy
    rw [setMem_mem_self]
    exact hg.le
  · rw [setMem_mem_of_ne hy]
    exact .refl _

/-- The calls do not mind that a store grows. -/
theorem Inv.setMem (h : Inv cipher f) (hg : Grows cipher (f.mem x) m) :
    Inv cipher (f.setMem x m) where
  ok y := by
    by_cases hy : y = x
    · subst hy
      rw [setMem_mem_self]
      exact hg.ok
    · rw [setMem_mem_of_ne hy]
      exact h.ok y
  enc y := by
    by_cases hy : y = x
    · subst hy
      rw [setMem_mem_self]
      exact hg.enc
    · rw [setMem_mem_of_ne hy]
      exact h.enc y
  handler hd hhd := by
    obtain ⟨data, hdata, hop, hfits⟩ := h.handler hd hhd
    exact ⟨data, hdata, hop, hfits.mono (Inv.le_setMem hg _)⟩
  inside y th call hin := by
    obtain ⟨hop, hfits⟩ := h.inside y th call hin
    exact ⟨hop, hfits.mono (Inv.le_setMem hg y)⟩

end Frame

/-! ## 3. Packets in any order -/

/-- The packets are in another order. -/
structure Shuffled (s t : Avocado.State Srv) : Prop where
  rest : t = { s with net := t.net }
  net : t.net.Perm s.net

theorem Shuffled.of_eq {s t : Avocado.State Srv} (h : t = s) : Shuffled s t := by
  subst h
  exact ⟨rfl, .refl _⟩

theorem Shuffled.of_perm {s : Avocado.State Srv} {net : List (Packet Srv)} (h : net.Perm s.net) :
    Shuffled s { s with net } := ⟨rfl, h⟩

theorem Shuffled.trans {s t u : Avocado.State Srv} (h : Shuffled s t) (h' : Shuffled t u) :
    Shuffled s u where
  rest := by
    rw [h'.rest, h.rest]
  net := h'.net.trans h.net

theorem Shuffled.symm {s t : Avocado.State Srv} (h : Shuffled s t) : Shuffled t s where
  rest := by rw [h.rest]
  net := h.net.symm

/-! ## 4. Steps that the whole does not see -/

theorem packet_mono {m m' : Mem S} {h : Handler Srv} (hle : m.Le m')
    (hfits : m.CallOk h.call.op h.call.pc) : h.packet m' = h.packet m := by
  rw [Handler.packet, Handler.packet, Mem.took_mono hle hfits]

/-- The packets in flight and with the handlers. -/
theorem whole_packets (f : State S Srv) (net : List (Packet Srv)) (handlers : List (Handler Srv)) :
    State.whole { f with abd := { f.abd with net }, handlers } =
      { f.whole with net := net ++ handlers.map fun h => h.packet (f.mem h.dst) } := rfl

section Stutter

variable [DecidableEq Srv] {cfg : Cfg Srv} {x : Srv} {m : Mem S} {f' : State S Srv}

theorem map_packet_setMem (h : Inv cipher f) (hg : Grows cipher (f.mem x) m) :
    (f.handlers.map fun hd => hd.packet ((f.setMem x m).mem hd.dst)) =
      f.handlers.map fun hd => hd.packet (f.mem hd.dst) := by
  refine List.map_congr_left fun hd hhd => ?_
  obtain ⟨-, -, -, hfits⟩ := h.handler hd hhd
  exact packet_mono (Inv.le_setMem hg _) hfits

theorem packets_setMem (h : Inv cipher f) (hg : Grows cipher (f.mem x) m) :
    (f.setMem x m).packets = f.packets :=
  congrArg (f.abd.net ++ ·) (map_packet_setMem h hg)

theorem pc_setMem (h : Inv cipher f) (hg : Grows cipher (f.mem x) m) :
    (f.setMem x m).pc = f.pc := by
  funext y th
  have hsame : ((f.setMem x m).inside y th).bind (fun call => ((f.setMem x m).mem y).took call.pc) =
      (f.inside y th).bind fun call => (f.mem y).took call.pc := by
    change (f.inside y th).bind (fun call => ((f.setMem x m).mem y).took call.pc) = _
    cases hin : f.inside y th with
    | none => rfl
    | some call => exact Mem.took_mono (Inv.le_setMem hg y) (h.inside y th call hin).2
  rw [State.pc, State.pc, hsame]
  rfl

/-- A store that grows is all that changes. -/
theorem whole_setMem (h : Inv cipher f) (hg : Grows cipher (f.mem x) m) :
    (f.setMem x m).whole = f.whole.setKv x m.kv := by
  have hkv : (fun y => ((f.setMem x m).mem y).kv) =
      fun y => if y = x then m.kv else (f.mem y).kv := by
    funext y
    by_cases hy : y = x
    · subst hy
      rw [setMem_mem_self, if_pos rfl]
    · rw [setMem_mem_of_ne hy, if_neg hy]
  rw [State.whole, hkv, pc_setMem h hg, packets_setMem h hg]
  rfl

theorem setKv_self (s : Avocado.State Srv) (x : Srv) : s.setKv x (s.kv x) = s := by
  have hkv : (fun y => if y = x then s.kv x else s.kv y) = s.kv := by
    funext y
    split
    · rename_i hy
      rw [hy]
    · rfl
  rw [State.setKv, hkv]

/-- And when the map is the same, nothing does. -/
theorem whole_setMem_of_kv (h : Inv cipher f) (hg : Grows cipher (f.mem x) m)
    (hkv : m.kv = (f.mem x).kv) : (f.setMem x m).whole = f.whole := by
  rw [whole_setMem h hg, hkv]
  exact setKv_self f.whole x

/-- What a thread's call has done decides where the thread is. -/
theorem pc_setInside (th : Nat) (o : Option Memtable.Call) : (f.setInside x th o).pc =
    fun y t => if y = x ∧ t = th then
      (o.bind fun call => (f.mem x).took call.pc).elim (f.abd.pc x th) (resume (f.abd.pc x th))
    else f.pc y t := by
  funext y t
  by_cases hy : y = x ∧ t = th
  · obtain ⟨rfl, rfl⟩ := hy
    simp only [State.pc, State.setInside, and_self, if_true]
  · simp only [State.pc, State.setInside, if_neg hy]

theorem pc_setInside_of_took {th : Nat} {o : Option Memtable.Call}
    (h : (o.bind fun call => (f.mem x).took call.pc) =
      (f.inside x th).bind fun call => (f.mem x).took call.pc) :
    (f.setInside x th o).pc = f.pc := by
  rw [pc_setInside, h]
  funext y t
  split
  · rename_i hy
    obtain ⟨rfl, rfl⟩ := hy
    rfl
  · rfl

theorem whole_setInside_of_took {th : Nat} {o : Option Memtable.Call}
    (h : (o.bind fun call => (f.mem x).took call.pc) =
      (f.inside x th).bind fun call => (f.mem x).took call.pc) :
    (f.setInside x th o).whole = f.whole := by
  rw [State.whole, pc_setInside_of_took h]
  rfl

theorem Inv.setInside (h : Inv cipher f) {th : Nat} {o : Option Memtable.Call}
    (ho : ∀ call, o = some call →
      threadCall f.abd x th = some call.op ∧ (f.mem x).CallOk call.op call.pc) :
    Inv cipher (f.setInside x th o) where
  ok := h.ok
  enc := h.enc
  handler := h.handler
  inside y t call hin := by
    by_cases hy : y = x ∧ t = th
    · obtain ⟨rfl, rfl⟩ := hy
      simp only [State.setInside, and_self, if_true] at hin
      exact ho call hin
    · simp only [State.setInside, if_neg hy] at hin
      exact h.inside y t call hin

/-! ## 5. The steps -/

theorem overwrite_step {p : Nat} {bytes : List UInt8} (hinv : Inv cipher f)
    (h : step cfg cipher f (.overwrite x p bytes) = some f') :
    Inv cipher f' ∧ f'.whole = f.whole := by
  simp only [step, Option.bind_eq_bind, Option.bind_eq_some_iff] at h
  obtain ⟨chunk, -, h⟩ := h
  split at h
  · rw [Option.some.injEq] at h
    subst h
    have hok := hinv.ok x
    have hg : Grows cipher (f.mem x) { f.mem x with slab := (f.mem x).slab.set p bytes } :=
      ⟨⟨hok.cell, hok.ptr, hok.cell_inj, hok.key_inj⟩, hinv.enc x,
        ⟨subset_rfl, id, fun hmd => ⟨_, hmd, le_refl _⟩⟩⟩
    exact ⟨hinv.setMem hg, whole_setMem_of_kv hinv hg rfl⟩
  · exact absurd h (by simp)

theorem take_step (hS : S.Lawful VarKeySizeNode.lt) {i : Nat} (hinv : Inv cipher f)
    (h : step cfg cipher f (.take i) = some f') :
    Inv cipher f' ∧ Shuffled f.whole f'.whole := by
  simp only [step] at h
  split at h
  · rename_i c dst type buf hi
    simp only [Option.bind_eq_bind, Option.bind_eq_some_iff, Option.some.injEq] at h
    obtain ⟨data, hdata, op, hop, rfl⟩ := h
    have hent := entered hS (hinv.ok dst) (hinv.enc dst) op
    generalize (enter cipher (f.mem dst) op).1 = m at hent ⊢
    generalize (enter cipher (f.mem dst) op).2 = call at hent ⊢
    have hinv' := hinv.setMem hent.grows
    refine ⟨⟨hinv'.ok, hinv'.enc, fun hd hhd => ?_, hinv'.inside⟩, ?_⟩
    · rcases List.mem_append.mp hhd with hhd | hhd
      · exact hinv'.handler hd hhd
      · rw [List.mem_singleton.mp hhd]
        refine ⟨data, hdata, by rw [hent.op, hop], ?_⟩
        change ((f.setMem dst m).mem dst).CallOk call.op call.pc
        rw [setMem_mem_self]
        exact hent.fits
    · -- the packet is the handler's now
      obtain ⟨hlt, heq⟩ := List.getElem?_eq_some_iff.mp hi
      have hnew : Handler.packet m ⟨c, dst, type, buf, call⟩ = f.abd.net[i] := by
        rw [heq, Handler.packet, hent.took, Option.bind_none]
      have hold := whole_setMem_of_kv hinv hent.grows hent.kv
      have hmap := map_packet_setMem hinv hent.grows
      have hwhole := whole_packets (f.setMem dst m) (f.abd.net.eraseIdx i)
        (f.handlers ++ [⟨c, dst, type, buf, call⟩])
      rw [hold, List.map_append, hmap, List.map_singleton, setMem_mem_self, hnew] at hwhole
      refine (Shuffled.of_perm ?_ : Shuffled f.whole _).trans (.of_eq hwhole)
      refine ((List.perm_append_singleton _ _).append_left _).trans (List.perm_middle.trans ?_)
      exact (List.getElem_cons_eraseIdx_perm hlt).append_right _
  · exact absurd h (by simp)

theorem handler_step (hS : S.Lawful VarKeySizeNode.lt) (hc : cipher.Lawful) {j : Nat}
    {spurious : Bool} (hinv : Inv cipher f)
    (hintact : ∀ hd, f.handlers[j]? = some hd → intact cipher (f.mem hd.dst) hd.call = true)
    (h : step cfg cipher f (.handler j spurious) = some f') : Inv cipher f' ∧
      (f'.whole = f.whole ∨ ∃ hd res kv, f.handlers[j]? = some hd ∧
        hd.packet (f.mem hd.dst) = .request hd.ctx hd.dst hd.type hd.buf ∧
        kvObject.apply (f.mem hd.dst).kv hd.call.op = (kv, res) ∧
        ∀ a, hd.reply res = some a → f'.whole =
          ({ f.whole with
              net := f.abd.net ++ (f.handlers.map fun hd => hd.packet (f.mem hd.dst)).set j
                (.response hd.ctx hd.dst ⟨true, a⟩) } : Avocado.State Srv).setKv hd.dst kv) := by
  simp only [step, Option.bind_eq_bind, Option.bind_eq_some_iff, Option.some.injEq] at h
  obtain ⟨hd, hj, ⟨m, call⟩, hadv, rfl⟩ := h
  obtain ⟨data, hdata, hop, hfits⟩ := hinv.handler hd (List.mem_of_getElem? hj)
  have hstep := advanced hS hc (hinv.ok _) (hinv.enc _) hfits (hintact hd hj) hadv
  have hinv' := hinv.setMem hstep.grows
  have hmap := map_packet_setMem hinv hstep.grows
  have hwhole := whole_packets (f.setMem hd.dst m) f.abd.net (f.handlers.set j { hd with call })
  rw [List.map_set, hmap, setMem_mem_self, whole_setMem hinv hstep.grows] at hwhole
  refine ⟨⟨hinv'.ok, hinv'.enc, fun hd' hhd' => ?_, hinv'.inside⟩, ?_⟩
  · rcases List.mem_or_eq_of_mem_set hhd' with hhd' | rfl
    · exact hinv'.handler hd' hhd'
    · refine ⟨data, hdata, by rw [hstep.op, hop], ?_⟩
      change ((f.setMem hd.dst m).mem hd.dst).CallOk call.op call.pc
      rw [setMem_mem_self]
      exact hstep.fits
  · rcases hstep.effect with ⟨htook, hkv⟩ | ⟨-, hnone, res, hres, happly⟩
    · have hsame : Handler.packet m { hd with call } = hd.packet (f.mem hd.dst) := by
        rw [Handler.packet, Handler.packet, htook]
        rfl
      have hset : f.handlers.set j hd = f.handlers := by
        obtain ⟨hlt, rfl⟩ := List.getElem?_eq_some_iff.mp hj
        exact List.set_getElem_self hlt
      rw [hsame, ← List.map_set, hset, hkv] at hwhole
      exact Or.inl (hwhole.trans (setKv_self f.whole hd.dst))
    · refine Or.inr ⟨hd, res, m.kv, hj, ?_, happly, fun a ha => ?_⟩
      · rw [Handler.packet, hnone, Option.bind_none]
      · have hnew : Handler.packet m { hd with call } = .response hd.ctx hd.dst ⟨true, a⟩ := by
          have hreply : Handler.reply { hd with call } res = some a := ha
          rw [Handler.packet, hres, Option.bind_some, hreply]
        rw [hnew] at hwhole
        exact hwhole

theorem answer_step {j : Nat} (hinv : Inv cipher f)
    (h : step cfg cipher f (.answer j) = some f') :
    Inv cipher f' ∧ Shuffled f.whole f'.whole := by
  simp only [step, Option.bind_eq_bind, Option.bind_eq_some_iff, Option.some.injEq] at h
  obtain ⟨hd, hj, res, hres, a, ha, rfl⟩ := h
  obtain ⟨hlt, rfl⟩ := List.getElem?_eq_some_iff.mp hj
  refine ⟨⟨hinv.ok, hinv.enc, fun hd' hhd' => ?_, hinv.inside⟩, ?_⟩
  · exact hinv.handler hd' (List.mem_of_mem_eraseIdx hhd')
  · -- the packet is in flight again
    have hpacket : Handler.packet (f.mem f.handlers[j].dst) f.handlers[j] =
        .response f.handlers[j].ctx f.handlers[j].dst ⟨true, a⟩ := by
      rw [Handler.packet, took_of_result hres, Option.bind_some, ha]
    have hwhole := whole_packets f
      (f.abd.net ++ [.response f.handlers[j].ctx f.handlers[j].dst ⟨true, a⟩])
      (f.handlers.eraseIdx j)
    refine (Shuffled.of_perm ?_ : Shuffled f.whole _).trans (.of_eq hwhole)
    rw [← hpacket, List.append_assoc, List.singleton_append]
    have hcons := (List.getElem_cons_eraseIdx_perm hlt).map fun hd => hd.packet (f.mem hd.dst)
    exact hcons.append_left f.abd.net

theorem call_step (hS : S.Lawful VarKeySizeNode.lt) {th : Nat} (hinv : Inv cipher f)
    (h : step cfg cipher f (.call x th) = some f') : Inv cipher f' ∧ f'.whole = f.whole := by
  simp only [step] at h
  split at h
  · rename_i hin
    simp only [Option.bind_eq_bind, Option.bind_eq_some_iff, Option.some.injEq] at h
    obtain ⟨op, hop, rfl⟩ := h
    have hent := entered hS (hinv.ok x) (hinv.enc x) op
    generalize (enter cipher (f.mem x) op).1 = m at hent ⊢
    generalize (enter cipher (f.mem x) op).2 = call at hent ⊢
    have hinv' := hinv.setMem hent.grows
    constructor
    · refine hinv'.setInside fun call' hcall => ?_
      rw [Option.some.injEq] at hcall
      subst hcall
      rw [setMem_mem_self, hent.op]
      exact ⟨hop, hent.op ▸ hent.fits⟩
    · rw [whole_setInside_of_took, whole_setMem_of_kv hinv hent.grows hent.kv]
      rw [Option.bind_some, setMem_mem_self, hent.took]
      change none = (f.inside x th).bind _
      rw [hin, Option.bind_none]
  · exact absurd h (by simp)

theorem thread_step (hS : S.Lawful VarKeySizeNode.lt) (hc : cipher.Lawful) {th : Nat}
    {spurious : Bool} (hinv : Inv cipher f)
    (hintact : ∀ call, f.inside x th = some call → intact cipher (f.mem x) call = true)
    (h : step cfg cipher f (.thread x th spurious) = some f') : Inv cipher f' ∧
      (f'.whole = f.whole ∨ ∃ call res kv, f.inside x th = some call ∧
        takesEffect cipher (f.mem x) spurious call = true ∧ f.pc x th = f.abd.pc x th ∧
        kvObject.apply (f.mem x).kv call.op = (kv, res) ∧
        f'.whole = (f.whole.setKv x kv).setPc x th (resume (f.abd.pc x th) res)) := by
  simp only [step, Option.bind_eq_bind, Option.bind_eq_some_iff, Option.some.injEq] at h
  obtain ⟨call, hin, ⟨m, call'⟩, hadv, rfl⟩ := h
  obtain ⟨hop, hfits⟩ := hinv.inside x th call hin
  have hstep := advanced hS hc (hinv.ok x) (hinv.enc x) hfits (hintact call hin) hadv
  have hinv' := hinv.setMem hstep.grows
  constructor
  · refine hinv'.setInside fun call₁ hcall => ?_
    rw [Option.some.injEq] at hcall
    subst hcall
    rw [setMem_mem_self]
    exact ⟨hstep.op ▸ hop, hstep.fits⟩
  · rcases hstep.effect with ⟨htook, hkv⟩ | ⟨hpoint, hnone, res, hres, happly⟩
    · refine Or.inl ?_
      rw [whole_setInside_of_took, whole_setMem_of_kv hinv hstep.grows hkv]
      have hin' : (f.setMem x m).inside x th = some call := hin
      rw [hin', Option.bind_some, Option.bind_some, setMem_mem_self, htook,
        Mem.took_mono hstep.grows.le hfits]
    · refine Or.inr ⟨call, res, m.kv, hin, hpoint, ?_, happly, ?_⟩
      · rw [State.pc, hin, Option.bind_some, hnone, Option.elim_none]
      · have hpc := pc_setInside (f := f.setMem x m) (x := x) th (some call')
        rw [Option.bind_some, setMem_mem_self, hres, Option.elim_some] at hpc
        rw [← whole_setMem hinv hstep.grows, State.whole, hpc]
        rfl

theorem ret_step {th : Nat} (hinv : Inv cipher f)
    (h : step cfg cipher f (.ret x th) = some f') : Inv cipher f' ∧ f'.whole = f.whole := by
  simp only [step, Option.bind_eq_bind, Option.bind_eq_some_iff, Option.some.injEq] at h
  obtain ⟨call, hin, res, hres, rfl⟩ := h
  have hother : ∀ {y t}, ¬ (y = x ∧ t = th) → (f.setInside x th none).inside y t = f.inside y t :=
    fun hy => if_neg hy
  have hself : (f.setInside x th none).inside x th = none := if_pos ⟨rfl, rfl⟩
  constructor
  · refine ⟨hinv.ok, hinv.enc, hinv.handler, fun y t call' hin' => ?_⟩
    by_cases hy : y = x ∧ t = th
    · obtain ⟨rfl, rfl⟩ := hy
      exact absurd (hself.symm.trans hin') (by simp)
    · obtain ⟨hop, hfits⟩ := hinv.inside y t call' ((hother hy).symm.trans hin')
      exact ⟨(threadCall_congr (State.setPc_pc_of_ne _ _ _ hy) rfl).trans hop, hfits⟩
  · -- the thread is where it was seen since its call took effect
    have hpc : State.pc { f.setInside x th none with
        abd := f.abd.setPc x th (resume (f.abd.pc x th) res) } = f.pc := by
      funext y t
      by_cases hy : y = x ∧ t = th
      · obtain ⟨rfl, rfl⟩ := hy
        simp only [State.pc, hself, hin, Option.bind_none, Option.bind_some, Option.elim_none,
          State.setPc_pc_self, took_of_result hres, Option.elim_some]
      · simp only [State.pc, hother hy, State.setPc_pc_of_ne _ _ _ hy]
        rfl
    rw [State.whole, hpc]
    rfl

end Stutter

/-! ## 6. Steps that touch no store -/

section Quiet

variable [DecidableEq Srv] {cfg : Cfg Srv} {s s' : Avocado.State Srv} {x : Srv} {th : Nat}

/-- The same contexts, with other stores, places and packets. -/
def placed (s : Avocado.State Srv) (kv : Srv → KVStore) (pc : Srv → Nat → Pc)
    (net : List (Packet Srv)) : Avocado.State Srv := { s with kv, pc, net }

/-- A step of thread `th` of server `x` that leaves it at `q`, and that depends on nothing but the
thread's place, and the contexts. -/
structure QuietStep (cfg : Cfg Srv) (s : Avocado.State Srv) (a : Avocado.Action Srv) (x : Srv)
    (th : Nat) (q : Pc) (new : List (Packet Srv)) (s' : Avocado.State Srv) : Prop where
  kv : s'.kv = s.kv
  pc : s'.pc = (s.setPc x th q).pc
  net : s'.net = s.net ++ new
  moves : ∀ kv pc net, pc x th = s.pc x th → Avocado.step cfg (placed s kv pc net) a =
    some (placed s' kv ((placed s kv pc net).setPc x th q).pc (net ++ new))

theorem send_placed {ctx : Ctx Srv} {type : ReqType} {msg : Msg}
    (h : s.send cfg ctx type msg = some s') : ∃ new, s'.kv = s.kv ∧ s'.pc = s.pc ∧
      s'.net = s.net ++ new ∧ ∀ kv pc net, (placed s kv pc net).send cfg ctx type msg =
        some (placed s' kv pc (net ++ new)) := by
  simp only [State.send, Option.bind_eq_bind, Option.bind_eq_some_iff] at h
  obtain ⟨reps, hreps, h⟩ := h
  split at h
  · rename_i hl
    simp only [Option.bind_eq_some_iff, Option.some.injEq] at h
    obtain ⟨wire, hw, rfl⟩ := h
    refine ⟨_, rfl, rfl, rfl, fun kv pc net => ?_⟩
    simp only [State.send, hreps, hw, if_pos hl, Option.bind_eq_bind, Option.bind_some]
    rfl
  · rename_i hl
    rw [Option.some.injEq] at h
    subst h
    refine ⟨[], rfl, rfl, (List.append_nil _).symm, fun kv pc net => ?_⟩
    simp only [State.send, hreps, if_neg hl, Option.bind_eq_bind, Option.bind_some,
      List.append_nil]
    rfl

theorem put_quiet {key value : List UInt8}
    (h : Avocado.step cfg s (.put x th key value) = some s') :
    s.pc x th = .idle ∧ ∃ new, QuietStep cfg s (.put x th key value) x th .idle new s' := by
  simp only [Avocado.step] at h
  split at h
  · rename_i hpc
    simp only [State.benchmarkPut, Option.bind_eq_bind, Option.bind_eq_some_iff] at h
    obtain ⟨msg, hmsg, k, hk, kb, hkb, b, hb, b', hb', v, hv, node, hnode, h⟩ := h
    obtain ⟨new, hkv, hpcs, hnet, hplaced⟩ := send_placed h
    refine ⟨hpc, new, hkv, hpcs.trans (setPc_idle hpc).symm, hnet, fun kv pc net hsame => ?_⟩
    rw [setPc_idle (s := placed s kv pc net) (hsame.trans hpc)]
    have hidle : (placed s kv pc net).pc x th = .idle := hsame.trans hpc
    simp only [Avocado.step, if_pos hidle, State.benchmarkPut, hmsg, hk, hkb, hb, hb', hv, hnode,
      Option.bind_eq_bind, Option.bind_some]
    exact hplaced kv pc net
  · exact absurd h (by simp)

theorem get_quiet {key value : List UInt8}
    (h : Avocado.step cfg s (.get x th key value) = some s') :
    s.pc x th = .idle ∧ ∃ new, QuietStep cfg s (.get x th key value) x th .idle new s' := by
  simp only [Avocado.step] at h
  split at h
  · rename_i hpc
    simp only [State.benchmarkGet, Option.bind_eq_bind, Option.bind_eq_some_iff] at h
    obtain ⟨msg, hmsg, k, hk, kb, hkb, node, hnode, h⟩ := h
    obtain ⟨new, hkv, hpcs, hnet, hplaced⟩ := send_placed h
    refine ⟨hpc, new, hkv, hpcs.trans (setPc_idle hpc).symm, hnet, fun kv pc net hsame => ?_⟩
    rw [setPc_idle (s := placed s kv pc net) (hsame.trans hpc)]
    have hidle : (placed s kv pc net).pc x th = .idle := hsame.trans hpc
    simp only [Avocado.step, if_pos hidle, State.benchmarkGet, hmsg, hk, hkb, hnode,
      Option.bind_eq_bind, Option.bind_some]
    exact hplaced kv pc net
  · exact absurd h (by simp)

theorem advance_quiet (hpc : atStore (s.pc x th) = false)
    (h : Avocado.step cfg s (.advance x th) = some s') :
    ∃ q new, QuietStep cfg s (.advance x th) x th q new s' := by
  simp only [Avocado.step, State.advance] at h
  split at h
  · exact absurd h (by simp)
  · rename_i hp
    exact absurd hpc (by simp [hp, atStore])
  · rename_i c loc hp
    simp only [Option.bind_eq_bind, Option.bind_eq_some_iff, Option.some.injEq] at h
    obtain ⟨ctx, hc, max, hm, rfl⟩ := h
    refine ⟨_, [], rfl, rfl, (List.append_nil _).symm, fun kv pc net hsame => ?_⟩
    have hp' : (placed s kv pc net).pc x th = .getTimeGot c loc := hsame.trans hp
    have hc' : (placed s kv pc net).ctxs[c]? = some ctx := hc
    simp only [Avocado.step, State.advance, hp', hc', hm, Option.bind_eq_bind, Option.bind_some,
      List.append_nil]
    rfl
  · rename_i c clock hp
    simp only [Option.bind_eq_bind, Option.bind_eq_some_iff, Option.some.injEq] at h
    obtain ⟨ctx, hc, node, hd, msg, hmsg, s₁, hs, rfl⟩ := h
    obtain ⟨new, hkv, hpcs, hnet, hplaced⟩ := send_placed hs
    refine ⟨.getTimeSent c clock, new, hkv, ?_, hnet, fun kv pc net hsame => ?_⟩
    · simp only [State.setPc, hpcs]
    · have hp' : (placed s kv pc net).pc x th = .getTimeChosen c clock := hsame.trans hp
      have hc' : (placed s kv pc net).ctxs[c]? = some ctx := hc
      simp only [Avocado.step, State.advance, hp', hc', hd, hmsg, hplaced kv pc net,
        Option.bind_eq_bind, Option.bind_some]
      rfl
  · rename_i hp
    exact absurd hpc (by simp [hp, atStore])
  · rename_i hp
    exact absurd hpc (by simp [hp, atStore])
  · rename_i c loc hp
    simp only [Option.bind_eq_bind, Option.bind_eq_some_iff] at h
    obtain ⟨ctx, hc, node, hd, st, hst, h⟩ := h
    have hp' : ∀ kv (pc : Srv → Nat → Pc) net, pc x th = s.pc x th →
        (placed s kv pc net).pc x th = .retValueGot c loc := fun kv pc net hsame => hsame.trans hp
    have hc' : ∀ kv pc net, (placed s kv pc net).ctxs[c]? = some ctx := fun _ _ _ => hc
    split at h
    · rename_i hback
      simp only [Option.bind_eq_some_iff, Option.some.injEq] at h
      obtain ⟨msg, hmsg, s₁, hs, rfl⟩ := h
      obtain ⟨new, hkv, hpcs, hnet, hplaced⟩ := send_placed hs
      refine ⟨.idle, new, hkv, ?_, hnet, fun kv pc net hsame => ?_⟩
      · simp only [State.setPc, State.note, State.addTraces, hpcs]
      · simp only [Avocado.step, State.advance, hp' kv pc net hsame, hc' kv pc net, hd, hst,
          if_pos hback, hmsg, hplaced kv pc net, Option.bind_eq_bind, Option.bind_some]
        rfl
    · rename_i hback
      rw [Option.bind_some, Option.some.injEq] at h
      subst h
      refine ⟨.idle, [], rfl, rfl, (List.append_nil _).symm, fun kv pc net hsame => ?_⟩
      simp only [Avocado.step, State.advance, hp' kv pc net hsame, hc' kv pc net, hd, hst,
        if_neg hback, Option.bind_eq_bind, Option.bind_some, List.append_nil]
      rfl

/-- What follows when a response has been counted. -/
def received (c : Nat) (ctx : Ctx Srv) (run : Bool) (s : Avocado.State Srv) : Avocado.State Srv :=
  match run, ctx.cont with
  | false, _ => s
  | true, .getTime => s.setPc ctx.srv ctx.thread (.getTime c)
  | true, .retValue => s.setPc ctx.srv ctx.thread (.retValue c)
  | true, .ackPutTime => (s.addTraces ctx.srv ctx.thread (-1)).note (.putRet ctx.op)
  | true, .retGetPutUpdate => s

theorem response_eq {i c : Nat} {src : Srv} {buf : MsgBuffer} {ctx : Ctx Srv} {rep : ReplicaContext}
    {run : Bool} (hi : s.net[i]? = some (.response c src buf)) (hc : s.ctxs[c]? = some ctx)
    (hpc : s.pc ctx.srv ctx.thread = .idle) (hr : ctx.rep.reqConts buf = some (rep, run)) :
    Avocado.step cfg s (.response i) = some (received c ctx run
      { s with net := s.net.eraseIdx i, ctxs := s.ctxs.set c { ctx with rep := rep } }) := by
  simp only [Avocado.step, State.response, hi, hc, if_pos hpc, hr, Option.bind_eq_bind,
    Option.bind_some]
  cases run with
  | false => rfl
  | true => cases hcont : ctx.cont <;> simp only [received, hcont, if_true]

theorem received_placed (c : Nat) {ctx : Ctx Srv} (run : Bool)
    (hpc : s.pc ctx.srv ctx.thread = .idle) : ∃ q, (received c ctx run s).kv = s.kv ∧
      (received c ctx run s).pc = (s.setPc ctx.srv ctx.thread q).pc ∧
      (received c ctx run s).net = s.net ∧
      ∀ kv (pc : Srv → Nat → Pc) net, pc ctx.srv ctx.thread = .idle →
        received c ctx run (placed s kv pc net) = placed (received c ctx run s) kv
          ((placed s kv pc net).setPc ctx.srv ctx.thread q).pc net := by
  have hstay : ∀ {kv} {pc : Srv → Nat → Pc} {net}, pc ctx.srv ctx.thread = .idle →
      ((placed s kv pc net).setPc ctx.srv ctx.thread .idle).pc = pc := by
    intro kv pc net hidle
    exact setPc_idle (s := placed s kv pc net) hidle
  cases run with
  | false =>
    refine ⟨.idle, rfl, (setPc_idle hpc).symm, rfl, fun kv pc net hidle => ?_⟩
    rw [hstay hidle]
    rfl
  | true =>
    cases hcont : ctx.cont with
    | getTime =>
      simp only [received, hcont]
      exact ⟨.getTime c, rfl, rfl, rfl, fun kv pc net _ => rfl⟩
    | retValue =>
      simp only [received, hcont]
      exact ⟨.retValue c, rfl, rfl, rfl, fun kv pc net _ => rfl⟩
    | ackPutTime =>
      simp only [received, hcont]
      refine ⟨.idle, rfl, (setPc_idle hpc).symm, rfl, fun kv pc net hidle => ?_⟩
      rw [hstay hidle]
      rfl
    | retGetPutUpdate =>
      have hsame : ∀ t, received c ctx true t = t := fun t => by simp only [received, hcont]
      simp only [hsame]
      exact ⟨.idle, trivial, (setPc_idle hpc).symm, trivial, fun kv pc net hidle => by
        rw [hstay hidle]⟩

theorem response_quiet {i : Nat} (h : Avocado.step cfg s (.response i) = some s') :
    ∃ p x th q, s.net[i]? = some p ∧ s.pc x th = .idle ∧ s'.kv = s.kv ∧
      s'.pc = (s.setPc x th q).pc ∧ s'.net = s.net.eraseIdx i ∧
      ∀ kv (pc : Srv → Nat → Pc) net j, pc x th = .idle → net[j]? = some p →
        Avocado.step cfg (placed s kv pc net) (.response j) =
          some (placed s' kv ((placed s kv pc net).setPc x th q).pc (net.eraseIdx j)) := by
  obtain ⟨c, src, buf, ctx, rep, run, hi, hc, hpc, hr⟩ : ∃ c src buf ctx rep run,
      s.net[i]? = some (.response c src buf) ∧ s.ctxs[c]? = some ctx ∧
        s.pc ctx.srv ctx.thread = .idle ∧ ctx.rep.reqConts buf = some (rep, run) := by
    cases step_cases h with
    | absorb hi hc hpc hr => exact ⟨_, _, _, _, _, _, hi, hc, hpc, hr⟩
    | enter hi hc hpc hr => exact ⟨_, _, _, _, _, _, hi, hc, hpc, hr⟩
    | acked hi hc hpc hr => exact ⟨_, _, _, _, _, _, hi, hc, hpc, hr⟩
  rw [response_eq hi hc hpc hr, Option.some.injEq] at h
  subst h
  obtain ⟨q, hkv, hpcs, hnet, hplaced⟩ := received_placed
    (s := { s with net := s.net.eraseIdx i, ctxs := s.ctxs.set c { ctx with rep := rep } })
    c run hpc
  refine ⟨_, ctx.srv, ctx.thread, q, hi, hpc, hkv, hpcs, hnet, fun kv pc net j hidle hj => ?_⟩
  rw [response_eq (s := placed s kv pc net) hj hc hidle hr, Option.some.injEq]
  exact hplaced kv pc (net.eraseIdx j) hidle

/-- **A quiet step**, one lemma for all: its thread calls no store. -/
theorem quiet_cases {a : Avocado.Action Srv} (hq : quiet s a = true)
    (h : Avocado.step cfg s a = some s') : ∃ x th q, atStore (s.pc x th) = false ∧
      s'.kv = s.kv ∧ s'.pc = (s.setPc x th q).pc ∧
      ∀ kv (pc : Srv → Nat → Pc) net rest, pc x th = s.pc x th → net.Perm (s.net ++ rest) →
        ∃ a' net', Avocado.step cfg (placed s kv pc net) a' =
            some (placed s' kv ((placed s kv pc net).setPc x th q).pc net') ∧
          net'.Perm (s'.net ++ rest) ∧ (a' = a ∨ ∃ j, a' = .response j) := by
  have happend : ∀ {x th q new}, QuietStep cfg s a x th q new s' →
      ∀ kv (pc : Srv → Nat → Pc) net rest, pc x th = s.pc x th → net.Perm (s.net ++ rest) →
        ∃ a' net', Avocado.step cfg (placed s kv pc net) a' =
            some (placed s' kv ((placed s kv pc net).setPc x th q).pc net') ∧
          net'.Perm (s'.net ++ rest) ∧ (a' = a ∨ ∃ j, a' = .response j) := by
    intro x th q new hstep kv pc net rest hsame hperm
    refine ⟨a, net ++ new, hstep.moves kv pc net hsame, ?_, Or.inl rfl⟩
    rw [hstep.net]
    refine (hperm.append_right new).trans ?_
    rw [List.append_assoc, List.append_assoc]
    exact List.perm_append_comm.append_left _
  cases a with
  | put x th key value =>
    obtain ⟨hpc, new, hstep⟩ := put_quiet h
    exact ⟨x, th, .idle, by rw [hpc]; rfl, hstep.kv, hstep.pc, happend hstep⟩
  | get x th key value =>
    obtain ⟨hpc, new, hstep⟩ := get_quiet h
    exact ⟨x, th, .idle, by rw [hpc]; rfl, hstep.kv, hstep.pc, happend hstep⟩
  | request i => exact absurd hq (by simp [quiet])
  | response i =>
    obtain ⟨p, x, th, q, hi, hpc, hkv, hpcs, hnet, hplaced⟩ := response_quiet h
    refine ⟨x, th, q, by rw [hpc]; rfl, hkv, hpcs, fun kv pc net rest hsame hperm => ?_⟩
    have hmem : p ∈ net := hperm.mem_iff.mpr
      (List.mem_append_left _ (List.mem_of_getElem? hi))
    obtain ⟨j, hj⟩ := List.getElem?_of_mem hmem
    refine ⟨.response j, net.eraseIdx j, hplaced kv pc net j (hsame.trans hpc) hj, ?_,
      Or.inr ⟨j, rfl⟩⟩
    have hlt := (List.getElem?_eq_some_iff.mp hi).1
    rw [hnet, ← List.eraseIdx_append_of_lt_length hlt]
    exact perm_eraseIdx hperm hj ((List.getElem?_append_left hlt).trans hi)
  | advance x th =>
    have hpc : atStore (s.pc x th) = false := by simpa [quiet] using hq
    obtain ⟨q, new, hstep⟩ := advance_quiet hpc h
    exact ⟨x, th, q, hpc, hstep.kv, hstep.pc, happend hstep⟩

end Quiet

theorem atStore_of_threadCall {s : Avocado.State Srv} {x : Srv} {th : Nat} {op : Op}
    (h : threadCall s x th = some op) : atStore (s.pc x th) = true := by
  unfold threadCall at h
  split at h
  · rename_i hpc
    rw [hpc, atStore]
  · rename_i hpc
    rw [hpc, atStore]
  · rename_i hpc
    rw [hpc, atStore]
  · exact absurd h (by simp)

/-- A context keeps the node that it holds. -/
theorem node_of_table {β : Type} {s s' : Avocado.State Srv} {c : Nat} {g : Node → Option β} {b : β}
    (ht : Table s s') (h : (s.ctxs[c]?.bind fun ctx => ctx.rep.data.bind g) = some b) :
    (s'.ctxs[c]?.bind fun ctx => ctx.rep.data.bind g) = some b := by
  obtain ⟨ctx, hc, hd⟩ := Option.bind_eq_some_iff.mp h
  obtain ⟨ctx', hc', hsame⟩ := ht.fwd c ctx hc
  rw [hc', Option.bind_some, hsame.data]
  exact hd

/-- A thread in front of a call stays there while others take steps. -/
theorem threadCall_of_table {s s' : Avocado.State Srv} {x : Srv} {th : Nat} {op : Op}
    (ht : Table s s') (hpc : s'.pc x th = s.pc x th) (h : threadCall s x th = some op) :
    threadCall s' x th = some op := by
  unfold threadCall at h ⊢
  rw [hpc]
  split at h
  · exact node_of_table ht h
  · exact node_of_table ht h
  · exact node_of_table ht h
  · exact absurd h (by simp)

section Steps

variable [DecidableEq Srv] {cfg : Cfg Srv} {f' : State S Srv}

theorem abd_step {a : Avocado.Action Srv} (hinv : Inv cipher f)
    (h : step cfg cipher f (.abd a) = some f') : Inv cipher f' ∧ ∀ s, Shuffled f.whole s →
      ∃ a' s', Avocado.step cfg s a' = some s' ∧ Shuffled f'.whole s' ∧
        (a' = a ∨ ∃ j, a' = .response j) := by
  simp only [step] at h
  split at h
  · rename_i hq
    obtain ⟨t, ht, rfl⟩ := Option.map_eq_some_iff.mp h
    obtain ⟨x, th, q, hat, hkv, hpcs, hmoves⟩ := quiet_cases hq ht
    have htable : Table f.abd t := table_of_moved (step_cases ht)
    -- the thread is not in a call
    have hout : f.inside x th = none := by
      rw [Option.eq_none_iff_forall_ne_some]
      intro call hin
      have hcall := atStore_of_threadCall (hinv.inside x th call hin).1
      exact absurd (hat.symm.trans hcall) (by simp)
    have hother : ∀ {y u}, ¬ (y = x ∧ u = th) → t.pc y u = f.abd.pc y u := by
      intro y u hy
      rw [hpcs, State.setPc_pc_of_ne _ _ _ hy]
    have hself : f.pc x th = f.abd.pc x th := by
      rw [State.pc, hout, Option.bind_none, Option.elim_none]
    have hpc : State.pc { f with abd := t } = (f.whole.setPc x th q).pc := by
      funext y u
      by_cases hy : y = x ∧ u = th
      · obtain ⟨rfl, rfl⟩ := hy
        rw [State.setPc_pc_self]
        simp only [State.pc, hout, Option.bind_none, Option.elim_none, hpcs,
          State.setPc_pc_self]
      · rw [State.setPc_pc_of_ne _ _ _ hy]
        simp only [State.pc, hother hy, State.whole]
    refine ⟨⟨hinv.ok, hinv.enc, hinv.handler, fun y u call hin => ?_⟩, fun s hs => ?_⟩
    · have hy : ¬ (y = x ∧ u = th) := by
        rintro ⟨rfl, rfl⟩
        exact absurd (hout.symm.trans hin) (by simp)
      obtain ⟨hop, hfits⟩ := hinv.inside y u call hin
      exact ⟨threadCall_of_table htable (hother hy) hop, hfits⟩
    · obtain ⟨a', net', hstep, hperm, ha'⟩ := hmoves f.whole.kv f.pc s.net _ hself hs.net
      have hplaced : placed f.abd f.whole.kv f.pc s.net = s := hs.rest.symm
      rw [hplaced] at hstep
      have hplaces : (s.setPc x th q).pc = (f.whole.setPc x th q).pc := by
        rw [hs.rest]
        rfl
      refine ⟨a', _, hstep, ⟨?_, hperm⟩, ha'⟩
      rw [hplaces, ← hpc]
      rfl
  · exact absurd h (by simp)

/-- A request whose call has taken effect. -/
theorem request_of_call {s : Avocado.State Srv} (hs : Sturdy cfg s)
    (hpkg : cfg.maxPackageSize < 2 ^ 62) {hd : Handler Srv} {data : Msg} {op : Op} {res : Res}
    {kv : KVStore} {k : Nat} (hk : s.net[k]? = some (.request hd.ctx hd.dst hd.type hd.buf))
    (hdata : getData hd.buf = some data) (hop : handlerCall hd.type data = some op)
    (happly : kvObject.apply (s.kv hd.dst) op = (kv, res)) :
    ∃ a, hd.reply res = some a ∧ Avocado.step cfg s (.request k) =
      some (({ s with net := s.net.eraseIdx k ++ [Packet.response hd.ctx hd.dst ⟨true, a⟩] } :
        Avocado.State Srv).setKv hd.dst kv) := by
  have hinv := hs.accounts.inv
  obtain ⟨s', hs'⟩ := exists_request (hs.sizes.fits hinv hpkg) hinv hk
  have hmoved := step_cases hs'
  cases hmoved with
  | request hi hh =>
    rw [hk, Option.some.injEq, Packet.request.injEq] at hi
    obtain ⟨rfl, rfl, rfl, rfl⟩ := hi
    rw [reqHandlers_eq (s.kv hd.dst) hdata hop, happly, Option.map_eq_some_iff] at hh
    obtain ⟨a, ha, heq⟩ := hh
    simp only [Handled.mk.injEq, Option.some.injEq, and_true] at heq
    obtain ⟨rfl, rfl⟩ := heq
    refine ⟨a, ?_, hs'⟩
    rw [Handler.reply, hdata]
    exact ha

/-- A continuation whose call has taken effect. -/
theorem advance_of_call {s : Avocado.State Srv} {x : Srv} {th : Nat} {op : Op} {res : Res}
    {kv : KVStore} (hop : threadCall s x th = some op)
    (happly : kvObject.apply (s.kv x) op = (kv, res)) :
    Avocado.step cfg s (.advance x th) =
      some ((s.setKv x kv).setPc x th (resume (s.pc x th) res)) := by
  unfold threadCall at hop
  split at hop
  · rename_i c hpc
    simp only [Option.bind_eq_bind, Option.bind_eq_some_iff, Option.some.injEq] at hop
    obtain ⟨ctx, hc, node, hd, rfl⟩ := hop
    obtain ⟨rfl, rfl⟩ := Prod.mk.inj happly
    rw [setKv_self]
    simp only [Avocado.step, State.advance, hpc, hc, hd, Option.bind_eq_bind, Option.bind_some,
      resume]
  · rename_i c hpc
    simp only [Option.bind_eq_bind, Option.bind_eq_some_iff, Option.some.injEq] at hop
    obtain ⟨ctx, hc, node, hd, rfl⟩ := hop
    obtain ⟨rfl, rfl⟩ := Prod.mk.inj happly
    rw [setKv_self]
    simp only [Avocado.step, State.advance, hpc, hc, hd, Option.bind_eq_bind, Option.bind_some,
      resume]
  · rename_i c clock hpc
    simp only [Option.bind_eq_bind, Option.bind_eq_some_iff, Option.some.injEq] at hop
    obtain ⟨ctx, hc, node, hd, rfl⟩ := hop
    obtain ⟨rfl, rfl⟩ := Prod.mk.inj happly
    simp only [Avocado.step, State.advance, hpc, hc, hd, Option.bind_eq_bind, Option.bind_some,
      resume]
  · exact absurd hop (by simp)

/-! ## 7. Runs -/

/-- A condition on the steps that has nothing to do with the packets, and delays none. -/
structure Local (ok : Avocado.State Srv → Avocado.Action Srv → Bool) : Prop where
  net : ∀ s net a, ok { s with net } a = ok s a
  request : ∀ s i, ok s (.request i) = true
  response : ∀ s i, ok s (.response i) = true

variable {ok : Avocado.State Srv → Avocado.Action Srv → Bool} {s : Avocado.State Srv}

omit [DecidableEq Srv] in
theorem Local.shuffled (h : Local ok) {s t : Avocado.State Srv} (hs : Shuffled s t)
    (a : Avocado.Action Srv) : ok t a = ok s a := by
  rw [hs.rest]
  exact h.net s t.net a

/-- The whole takes a step, or none. -/
def Follows (cfg : Cfg Srv) (ok : Avocado.State Srv → Avocado.Action Srv → Bool)
    (s : Avocado.State Srv) (f' : State S Srv) : Prop :=
  Shuffled f'.whole s ∨
    ∃ a s', ok s a = true ∧ Avocado.step cfg s a = some s' ∧ Shuffled f'.whole s'

theorem follows_of_handler (hlocal : Local ok) (hsturdy : Sturdy cfg s)
    (hpkg : cfg.maxPackageSize < 2 ^ 62) (hinv : Inv cipher f) (hs : Shuffled f.whole s) {j : Nat}
    {hd : Handler Srv} {res : Res} {kv : KVStore} (hj : f.handlers[j]? = some hd)
    (hpacket : hd.packet (f.mem hd.dst) = .request hd.ctx hd.dst hd.type hd.buf)
    (happly : kvObject.apply (f.mem hd.dst).kv hd.call.op = (kv, res))
    (hwhole : ∀ a, hd.reply res = some a → f'.whole =
      ({ f.whole with
          net := f.abd.net ++ (f.handlers.map fun hd => hd.packet (f.mem hd.dst)).set j
            (.response hd.ctx hd.dst ⟨true, a⟩) } : Avocado.State Srv).setKv hd.dst kv) :
    Follows cfg ok s f' := by
  obtain ⟨data, hdata, hop, -⟩ := hinv.handler hd (List.mem_of_getElem? hj)
  have hkv : s.kv hd.dst = (f.mem hd.dst).kv := by
    rw [hs.rest]
    rfl
  -- the request among the packets of the whole
  have hmap : (f.handlers.map fun hd => hd.packet (f.mem hd.dst))[j]? =
      some (.request hd.ctx hd.dst hd.type hd.buf) := by
    rw [List.getElem?_map, hj, Option.map_some, hpacket]
  have hfound : f.packets[f.abd.net.length + j]? =
      some (.request hd.ctx hd.dst hd.type hd.buf) := by
    rw [State.packets, List.getElem?_append_right (Nat.le_add_right _ _), Nat.add_sub_cancel_left]
    exact hmap
  obtain ⟨k, hk⟩ := List.getElem?_of_mem (hs.net.mem_iff.mpr (List.mem_of_getElem? hfound))
  obtain ⟨a, hreply, hstep⟩ := request_of_call hsturdy hpkg hk hdata hop (hkv ▸ happly)
  refine Or.inr ⟨.request k, _, hlocal.request s k, hstep, ?_⟩
  rw [hwhole a hreply]
  refine ⟨?_, ?_⟩
  · rw [hs.rest]
    rfl
  · have hset : f.packets.set (f.abd.net.length + j) (.response hd.ctx hd.dst ⟨true, a⟩) =
        f.abd.net ++ (f.handlers.map fun hd => hd.packet (f.mem hd.dst)).set j
          (.response hd.ctx hd.dst ⟨true, a⟩) := by
      rw [State.packets, List.set_append_right _ _ (Nat.le_add_right _ _), Nat.add_sub_cancel_left]
    exact (perm_replace _ hs.net hk hfound).trans (.of_eq hset)

theorem follows_of_thread (hlocal : Local ok) (hinv : Inv cipher f) (hs : Shuffled f.whole s)
    {x : Srv} {th : Nat} {call : Memtable.Call} {res : Res} {kv : KVStore}
    (hin : f.inside x th = some call) (hok : ok f.whole (.advance x th) = true)
    (hpc : f.pc x th = f.abd.pc x th) (happly : kvObject.apply (f.mem x).kv call.op = (kv, res))
    (hwhole : f'.whole = (f.whole.setKv x kv).setPc x th (resume (f.abd.pc x th) res)) :
    Follows cfg ok s f' := by
  obtain ⟨hop, -⟩ := hinv.inside x th call hin
  have hsame : threadCall f.whole x th = threadCall f.abd x th := threadCall_congr hpc rfl
  have hcall : threadCall s x th = some call.op := by
    rw [hs.rest]
    exact hsame.trans hop
  have hkv : s.kv x = (f.mem x).kv := by
    rw [hs.rest]
    rfl
  refine Or.inr ⟨.advance x th, _, (hlocal.shuffled hs _).trans hok,
    advance_of_call hcall (hkv ▸ happly), ?_⟩
  have hplace : s.pc x th = f.abd.pc x th := by
    rw [hs.rest]
    exact hpc
  rw [hwhole, hplace]
  refine ⟨?_, hs.net⟩
  rw [hs.rest]
  rfl

/-- **One step of the servers is a step of the whole, or none.** -/
theorem follows_of_step (hS : S.Lawful VarKeySizeNode.lt) (hc : cipher.Lawful)
    (hlocal : Local ok) (hsturdy : Sturdy cfg s) (hpkg : cfg.maxPackageSize < 2 ^ 62)
    (hinv : Inv cipher f) (hs : Shuffled f.whole s) {a : Action Srv}
    (hok : permits cipher ok f a = true) (h : step cfg cipher f a = some f') :
    Inv cipher f' ∧ Follows cfg ok s f' := by
  cases a with
  | abd a =>
    obtain ⟨hinv', hmoves⟩ := abd_step hinv h
    obtain ⟨a', s', hstep, hs', ha'⟩ := hmoves s hs
    refine ⟨hinv', Or.inr ⟨a', s', ?_, hstep, hs'⟩⟩
    rcases ha' with rfl | ⟨j, rfl⟩
    · exact (hlocal.shuffled hs a').trans hok
    · exact hlocal.response s j
  | take i =>
    obtain ⟨hinv', hsame⟩ := take_step hS hinv h
    exact ⟨hinv', Or.inl (hsame.symm.trans hs)⟩
  | handler j spurious =>
    obtain ⟨hinv', hsame | ⟨hd, res, kv, hj, hpacket, happly, hwhole⟩⟩ := handler_step hS hc hinv
      (fun hd hj => by simpa only [permits, hj] using hok) h
    · exact ⟨hinv', Or.inl (hsame ▸ hs)⟩
    · exact ⟨hinv', follows_of_handler hlocal hsturdy hpkg hinv hs hj hpacket happly hwhole⟩
  | answer j =>
    obtain ⟨hinv', hsame⟩ := answer_step hinv h
    exact ⟨hinv', Or.inl (hsame.symm.trans hs)⟩
  | call x th =>
    obtain ⟨hinv', hsame⟩ := call_step hS hinv h
    exact ⟨hinv', Or.inl (hsame ▸ hs)⟩
  | thread x th spurious =>
    have hall : ∀ call, f.inside x th = some call → intact cipher (f.mem x) call = true ∧
        (takesEffect cipher (f.mem x) spurious call = true →
          ok f.whole (.advance x th) = true) := by
      intro call hin
      simp only [permits, hin, Bool.and_eq_true, Bool.or_eq_true, Bool.not_eq_true'] at hok
      exact ⟨hok.1, fun htakes => hok.2.resolve_left (by simp [htakes])⟩
    obtain ⟨hinv', hsame | ⟨call, res, kv, hin, htakes, hpc, happly, hwhole⟩⟩ :=
      thread_step hS hc hinv (fun call hin => (hall call hin).1) h
    · exact ⟨hinv', Or.inl (hsame ▸ hs)⟩
    · exact ⟨hinv', follows_of_thread hlocal hinv hs hin ((hall call hin).2 htakes) hpc happly
        hwhole⟩
  | ret x th =>
    obtain ⟨hinv', hsame⟩ := ret_step hinv h
    exact ⟨hinv', Or.inl (hsame ▸ hs)⟩
  | overwrite x p bytes =>
    obtain ⟨hinv', hsame⟩ := overwrite_step hinv h
    exact ⟨hinv', Or.inl (hsame ▸ hs)⟩

/-- The invariant of the runs. -/
structure Mirrored (cfg : Cfg Srv) (cipher : CipherSsl)
    (ok : Avocado.State Srv → Avocado.Action Srv → Bool) (f : State S Srv) : Prop where
  inv : Inv cipher f
  /-- A run of the system with atomic stores leads to what one sees from the stores. -/
  run : ∃ s, Avocado.Run cfg ok (.init Srv) s ∧ Shuffled f.whole s

theorem Mirrored.init (hS : S.Lawful VarKeySizeNode.lt) :
    Mirrored cfg cipher ok (State.init S Srv) where
  inv := .init hS
  run := by
    have hkv : (fun x => ((State.init S Srv).mem x).kv) = fun _ => .empty :=
      funext fun _ => (Memtable.inv_init hS : Memtable.Inv cipher _).kv
    refine ⟨.init Srv, .refl, .of_eq ?_⟩
    rw [State.whole, hkv]
    rfl

theorem Mirrored.step (hS : S.Lawful VarKeySizeNode.lt) (hc : cipher.Lawful) (hlocal : Local ok)
    (hsmall : ∀ s a, ok s a = true → small cfg s a = true) (hpkg : cfg.maxPackageSize < 2 ^ 62)
    (h : Mirrored cfg cipher ok f)
    (hmove : Run.Moves (Run.guard (permits cipher ok) (OverMemtable.step cfg cipher)) f f') :
    Mirrored cfg cipher ok f' := by
  obtain ⟨a, ha⟩ := hmove
  obtain ⟨hok, hstep⟩ := Run.guard_eq_some.mp ha
  obtain ⟨s, hrun, hs⟩ := h.run
  have hsturdy : Sturdy cfg s := sturdy_of_run (Run.guard_mono hsmall hrun)
  obtain ⟨hinv, hs' | ⟨b, s', hokb, hb, hs'⟩⟩ :=
    follows_of_step hS hc hlocal hsturdy hpkg h.inv hs hok hstep
  · exact ⟨hinv, s, hrun, hs'⟩
  · exact ⟨hinv, s', hrun.tail ⟨b, Run.guard_eq_some.mpr ⟨hokb, hb⟩⟩, hs'⟩

theorem mirrored_of_run (hS : S.Lawful VarKeySizeNode.lt) (hc : cipher.Lawful)
    (hlocal : Local ok) (hsmall : ∀ s a, ok s a = true → small cfg s a = true)
    (hpkg : cfg.maxPackageSize < 2 ^ 62) (h : IntactRun cfg cipher ok (State.init S Srv) f) :
    Mirrored cfg cipher ok f :=
  Run.invariant (fun _ _ hf hmove => hf.step hS hc hlocal hsmall hpkg hmove) h (.init hS)

/-- **The servers over their memtables refine the system with atomic stores.**  Every run in which
no call decrypts a chunk that was changed leads to a state that looks, from its stores, like one
that a run of `Abd/System.lean` leads to: the same history, contexts and maps, and the same packets
in some order. -/
theorem exists_run_of_run (hS : S.Lawful VarKeySizeNode.lt) (hc : cipher.Lawful)
    (hlocal : Local ok) (hsmall : ∀ s a, ok s a = true → small cfg s a = true)
    (hpkg : cfg.maxPackageSize < 2 ^ 62) (h : IntactRun cfg cipher ok (State.init S Srv) f) :
    ∃ s, Avocado.Run cfg ok (.init Srv) s ∧ s.log = f.abd.log ∧ s.ctxs = f.abd.ctxs ∧
      (∀ x, s.kv x = (f.mem x).kv) ∧ (∀ x th, s.pc x th = f.pc x th) ∧
      s.net.Perm f.packets := by
  obtain ⟨s, hrun, hs⟩ := (mirrored_of_run hS hc hlocal hsmall hpkg h).run
  refine ⟨s, hrun, ?_, ?_, fun x => ?_, fun x th => ?_, hs.net⟩
  all_goals
    rw [hs.rest]
    rfl

end Steps

/-! ## 8. The stack is linearizable -/

section Linearizes

variable [DecidableEq Srv] {cfg : Cfg Srv}

/-- The step breaks none of the conditions of the linearizable runs, and its call has a key and a
value that the buffers hold. -/
def orderly (cfg : Cfg Srv) (s : Avocado.State Srv) (a : Avocado.Action Srv) : Bool :=
  harmless cfg s a && small cfg s a

theorem orderly_local : Local (orderly cfg) where
  net s net a := by cases a <;> rfl
  request s i := rfl
  response s i := rfl

/-- **The stack is linearizable.**  Over the lock-free memtables, with handlers and continuations
of a server that work on its store at the same time, and a host that may overwrite whatever is not
being read, what the callers of `benchmark_put` and `benchmark_get` see is a map of registers. -/
theorem linearizes_of_intactRun (hS : S.Lawful VarKeySizeNode.lt) (hc : cipher.Lawful)
    (hpkg : cfg.maxPackageSize < 2 ^ 62) (hg : ∀ k, k ≠ [] → ∃ g, GroupOfThree cfg k g)
    (hid : Function.Injective cfg.mId)
    (h : IntactRun cfg cipher (orderly cfg) (State.init S Srv) f) :
    ∃ l, l.Perm f.abd.effects ∧
      (History.registers (List UInt8) (List UInt8)).Linearizes f.abd.history l := by
  have hand : ∀ s a, orderly cfg s a = true → harmless cfg s a = true ∧ small cfg s a = true := by
    intro s a hok
    rwa [orderly, Bool.and_eq_true] at hok
  have hsmall : ∀ s a, orderly cfg s a = true → small cfg s a = true :=
    fun s a hok => (hand s a hok).2
  obtain ⟨s, hrun, hs⟩ := (mirrored_of_run hS hc orderly_local hsmall hpkg h).run
  have hharmless : Avocado.Run cfg (harmless cfg) (.init Srv) s :=
    Run.guard_mono (fun s a hok => (hand s a hok).1) hrun
  obtain ⟨time, hstamped⟩ := stamped_of_run hg hid hharmless
  have hlinear := History.linearizes_of_stamps (wellFormed_of_run hharmless) hstamped
  rw [hs.rest] at hlinear
  exact hlinear

end Linearizes

/-! ## 9. A run -/

open Memtable (maskCipher maskCipher_lawful)

/-- A put at the first server, whose own call of the store and a replica's call overlap, and then a
get, after which the host overwrites the chunk that the replica has read. -/
def putThenGet : List (Action Trio) :=
  [.abd (.put .first 0 trioKey trioValue), .take 0, .handler 0 false, .handler 0 false, .answer 0,
    .abd (.response 1), .call .first 0, .thread .first 0 false, .thread .first 0 false,
    .ret .first 0, .abd (.advance .first 0), .abd (.advance .first 0), .call .first 0, .take 1,
    .thread .first 0 false, .handler 0 false, .handler 0 false, .answer 0,
    .thread .first 0 false, .ret .first 0, .abd (.response 2),
    .abd (.get .first 0 trioKey []), .take 2, .handler 0 false, .handler 0 false, .handler 0 false,
    .overwrite .second 0 (List.replicate 16 0), .answer 0, .abd (.response 3),
    .call .first 0, .thread .first 0 false, .thread .first 0 false, .thread .first 0 false,
    .ret .first 0, .abd (.advance .first 0)]

theorem intactRun_putThenGet : ∃ f : State (AtomicSet.sorted VarKeySizeNode.lt) Trio,
    IntactRun trio maskCipher (orderly trio) (State.init _ _) f ∧
      f.abd.history = [.call 0 (.write trioKey trioValue), .ret 0 none, .call 2 (.read trioKey),
        .ret 2 (some trioValue)] ∧
      f.abd.effects = [(0, .write trioKey trioValue, none),
        (2, .read trioKey, some trioValue)] := by
  let run := Run.exec (Run.guard (permits maskCipher (orderly trio)) (step trio maskCipher))
    (State.init (AtomicSet.sorted VarKeySizeNode.lt) Trio) putThenGet
  have hend : (run.map fun f => decide (f.abd.history = [.call 0 (.write trioKey trioValue),
      .ret 0 none, .call 2 (.read trioKey), .ret 2 (some trioValue)] ∧
        f.abd.effects = [(0, .write trioKey trioValue, none),
          (2, .read trioKey, some trioValue)])) = some true := by decide +kernel
  obtain ⟨f, hf, hres⟩ := Option.map_eq_some_iff.mp hend
  exact ⟨f, Run.of_exec hf, of_decide_eq_true hres⟩

theorem exists_run_of_run_putThenGet : ∃ s, Avocado.Run trio (orderly trio) (.init Trio) s ∧
    s.history = [.call 0 (.write trioKey trioValue), .ret 0 none, .call 2 (.read trioKey),
      .ret 2 (some trioValue)] := by
  obtain ⟨f, hf, hhist, -⟩ := intactRun_putThenGet
  obtain ⟨s, hrun, hlog, -⟩ := exists_run_of_run (AtomicSet.sorted_lawful _) maskCipher_lawful
    orderly_local (fun s a hok => (Bool.and_eq_true_iff.mp hok).2) (by decide) hf
  refine ⟨s, hrun, ?_⟩
  rw [Avocado.State.history, hlog]
  exact hhist

theorem linearizes_of_intactRun_putThenGet : ∃ l,
    l.Perm [(0, .write trioKey trioValue, none), (2, .read trioKey, some trioValue)] ∧
      (History.registers (List UInt8) (List UInt8)).Linearizes
        [.call 0 (.write trioKey trioValue), .ret 0 none, .call 2 (.read trioKey),
          .ret 2 (some trioValue)] l := by
  obtain ⟨f, hf, hhist, heffects⟩ := intactRun_putThenGet
  have h := linearizes_of_intactRun (AtomicSet.sorted_lawful _) maskCipher_lawful (by decide)
    groups_trio injective_mId_trio hf
  rw [hhist, heffects] at h
  exact h

end Avocado.OverMemtable
