/-
# One server may be down

The operations of a server end although another server of the group has stopped.  Nothing here
tells the servers that it has: its requests stay in the network and its threads where they are.

Three facts carry it.  When all calls have keys and values that the buffers hold (`small`), so has
every state (`Small`), and no step gets stuck for want of room.  A context has at most one packet
for each server (`Paired`), so at most one response of a context is missing, which is one more than
the threshold.  And every schedule ends (`work_of_exec`).
-/
import Avocado.Abd.Termination
import Avocado.Abd.Convergence
import Avocado.Abd.Linearizable

namespace Avocado

open Lookup Records

variable {Srv : Type} {cfg : Cfg Srv} {s s' : State Srv}

/-! ## 1. Sizes -/

/-- No message with the key and a value of `n` bytes, or with its clock for a value, is longer than
`max_package_size`. -/
def Cfg.holds (cfg : Cfg Srv) (k : List UInt8) (n : Nat) : Bool :=
  decide (24 + k.length + max n (k.length + 8) ≤ cfg.maxPackageSize)

/-- Only calls with keys and values that the buffers hold. -/
def small (cfg : Cfg Srv) (_ : State Srv) : Action Srv → Bool
  | .put _ _ key value => cfg.holds key value.length
  | .get _ _ key _ => cfg.holds key 0
  | .request _ | .response _ | .advance _ _ => true

theorem holds_iff {k : List UInt8} {n : Nat} : cfg.holds k n = true ↔
    24 + k.length + n ≤ cfg.maxPackageSize ∧ 32 + 2 * k.length ≤ cfg.maxPackageSize := by
  rw [Cfg.holds, decide_eq_true_iff]
  omega

/-- What a context holds. -/
structure CtxSmall (cfg : Cfg Srv) (ctx : Ctx Srv) : Prop where
  key : cfg.holds ctx.key 0 = true
  data : ∀ node, ctx.rep.data = some node →
    cfg.holds node.key node.metaData.data.length = true
  cache : ∀ buf ∈ ctx.rep.cache, buf.text.ptr.length ≤ cfg.maxPackageSize

/-- What is stored, held and in flight is no longer than the buffers. -/
structure Small (cfg : Cfg Srv) (s : State Srv) : Prop where
  ctx : ∀ ctx ∈ s.ctxs, CtxSmall cfg ctx
  stored : ∀ x k m, (s.kv x).find k = some m → cfg.holds k m.data.length = true
  read : ∀ x th r c ctx, (s.pc x th).localResp = some r →
    (s.pc x th).inside.map Prod.fst = some c → s.ctxs[c]? = some ctx →
    cfg.holds ctx.key r.size = true
  write : ∀ c dst type buf ctx, .request c dst type buf ∈ s.net → s.ctxs[c]? = some ctx →
    ctx.cont = .ackPutTime ∨ ctx.cont = .retGetPutUpdate → ∃ (t : Lamport) (v : List UInt8),
      buf.text.ptr = image (ctx.key ++ t.toBytes) v [] ∧ cfg.holds ctx.key v.length = true
  answer : ∀ c src buf, .response c src buf ∈ s.net → buf.text.ptr.length ≤ cfg.maxPackageSize

theorem Small.init : Small cfg (State.init Srv) where
  ctx _ h := absurd h (by simp [State.init])
  stored _ _ _ h := absurd (show none = some _ from h) (by simp)
  read _ _ _ _ _ h := absurd h (by simp [State.init, Pc.localResp])
  write _ _ _ _ _ h := absurd h (by simp [State.init])
  answer _ _ _ h := absurd h (by simp [State.init])

theorem Pc.inside_of_localResp {pc : Pc} {r : RetValue} (h : pc.localResp = some r) :
    ∃ e, pc.inside = some e := by
  cases pc with
  | getTimeGot | retValueGot => exact ⟨_, rfl⟩
  | idle | getTime | getTimeChosen | getTimeSent | retValue => exact absurd h (by simp [localResp])

/-- **Small states fit.** -/
theorem Small.fits (h : Small cfg s) (hinv : Inv cfg anyLow s)
    (hpkg : cfg.maxPackageSize < 2 ^ 62) : Fits cfg s where
  package := hpkg
  response ctx hctx := (h.ctx ctx hctx).cache
  call ctx hctx node hd := by
    have hle := (holds_iff.mp ((h.ctx ctx hctx).data node hd)).1
    omega
  read x th r hr := by
    obtain ⟨⟨c, cont⟩, hin⟩ := Pc.inside_of_localResp hr
    obtain ⟨ctx, hc, -⟩ := hinv.pc x th c cont hin
    have hle := (holds_iff.mp (h.read x th r c ctx hr (by rw [hin]; rfl) hc)).1
    omega
  stored x k m hm := by
    have hle := (holds_iff.mp (h.stored x k m hm)).1
    omega

theorem Small.length_valueOf (h : Small cfg s) (x : Srv) {k : List UInt8}
    (hk : cfg.holds k 0 = true) : 24 + k.length + ((s.kv x).valueOf k).length
      ≤ cfg.maxPackageSize := by
  unfold KVStore.valueOf
  split
  · exact (holds_iff.mp hk).1
  · rename_i m hm
    exact (holds_iff.mp (h.stored x k m hm)).1

/-- What `RetValue` keeps is what its server had, or the key and its clock. -/
theorem size_readResponses {ctx : ReplicaContext} {size : Nat} {node : Node} {loc : RetValue}
    {st : ReadState} (hs : ctx.Sized) (hform : ∀ buf ∈ ctx.cache, ∃ e, ValueFor node.key buf e)
    (h : readResponses ctx size node loc = some st) :
    st.max.2.size = loc.size ∨ st.max.2.size = node.key.length + 8 := by
  have : Nonempty (Lamport × List UInt8) := ⟨(Lamport.min, [])⟩
  choose! entry hentry using hform
  have hes : List.Forall₂ (ValueFor node.key) ctx.cache (ctx.cache.map entry) :=
    List.forall₂_map_right_iff.mpr (List.forall₂_same.mpr hentry)
  rw [readResponses_eq size loc hs hes, Option.map_eq_some_iff] at h
  obtain ⟨tmp, -, rfl⟩ := h
  simp only [kept]
  split
  · exact Or.inl rfl
  · exact Or.inr rfl

section Steps

variable [DecidableEq Srv]

theorem Small.step_ctx {a : Action Srv} (h : Small cfg s) (hok : small cfg s a = true)
    (hm : Moved cfg s a s') : ∀ ctx ∈ s'.ctxs, CtxSmall cfg ctx := by
  have hsend : ∀ {s₁ s₂ : State Srv} {ctx : Ctx Srv} {type : ReqType} {msg : Msg},
      s₁.send cfg ctx type msg = some s₂ → s₁.ctxs = s.ctxs → CtxSmall cfg ctx →
      ∀ ctx' ∈ s₂.ctxs, CtxSmall cfg ctx' := by
    intro s₁ s₂ ctx type msg hs hctxs hctx ctx' hmem
    obtain ⟨n, hn⟩ := (sent_of_send hs).ctxs
    rw [hn, hctxs] at hmem
    rcases List.mem_append.mp hmem with hold | hnew
    · exact h.ctx ctx' hold
    · rw [List.mem_singleton.mp hnew]
      exact ⟨hctx.key, hctx.data, hctx.cache⟩
  -- a context without data and responses
  have hempty : ∀ {x : Srv} {th op : Nat} {cont : ContType} {k : List UInt8},
      cfg.holds k 0 = true → CtxSmall cfg ⟨x, th, cont, k, op, {}⟩ := by
    intro x th op cont k hk
    exact ⟨hk, fun node hd => absurd hd (by simp), fun buf hbuf => absurd hbuf (by simp)⟩
  have hcached : ∀ {i c : Nat} {src : Srv} {buf : MsgBuffer} {ctx : Ctx Srv}
      {rep : ReplicaContext} {run : Bool}, s.net[i]? = some (.response c src buf) →
      s.ctxs[c]? = some ctx → ctx.rep.reqConts buf = some (rep, run) →
      ∀ ctx' ∈ s.ctxs.set c { ctx with rep := rep }, CtxSmall cfg ctx' := by
    intro i c src buf ctx rep run hi hc hr ctx' hmem
    have hctx := h.ctx ctx (List.mem_of_getElem? hc)
    obtain ⟨hcache, hdata, -⟩ := reqConts_cases hr
    rcases List.mem_or_eq_of_mem_set hmem with hold | rfl
    · exact h.ctx ctx' hold
    · refine ⟨hctx.key, by rw [hdata]; exact hctx.data, ?_⟩
      intro b hb
      simp only [hcache, List.mem_append, List.mem_singleton] at hb
      rcases hb with hb | rfl
      · exact hctx.cache b hb
      · exact h.answer c src b (List.mem_of_getElem? hi)
  have hnode : ∀ {c : Nat} {ctx : Ctx Srv} {node : Node}, s.ctxs[c]? = some ctx →
      ctx.rep.data = some node → cfg.holds node.key 0 = true := by
    intro c ctx node hc hd
    have hle := holds_iff.mp ((h.ctx ctx (List.mem_of_getElem? hc)).data node hd)
    exact holds_iff.mpr ⟨by omega, hle.2⟩
  cases hm with
  | @put x th key value msg _ hpc hmsg hs =>
    have hle := holds_iff.mp hok
    have hkey : cfg.holds key 0 = true := holds_iff.mpr ⟨by omega, hle.2⟩
    refine hsend hs rfl ⟨hkey, ?_, by simp⟩
    rintro node hd
    obtain rfl := Option.some.inj hd
    exact hok
  | @get x th key value msg _ hpc hmsg hs =>
    refine hsend hs rfl ⟨hok, ?_, by simp⟩
    rintro node hd
    obtain rfl := Option.some.inj hd
    exact hok
  | request | kvGet | choose | store => exact h.ctx
  | absorb hi hc hpc hr => exact hcached hi hc hr
  | enter hi hc hpc hr => exact hcached hi hc hr
  | acked hi hc hpc hr => exact hcached hi hc hr
  | send hpc hc hd hmsg hs =>
    rw [State.setPc_ctxs]
    exact hsend hs rfl (hempty (hnode hc hd))
  | report hpc hc hd hst hs =>
    rcases hs with rfl | ⟨msg, v, -, -, -, hs⟩
    · exact h.ctx
    · simp only [State.setPc_ctxs, State.note_ctxs, State.addTraces_ctxs]
      exact hsend hs rfl (hempty (hnode hc hd))

theorem Small.step_stored {a : Action Srv} (h : Small cfg s) (hinv : Inv cfg anyLow s)
    (hm : Moved cfg s a s') (x : Srv) (k : List UInt8) (m : MetaData)
    (hf : (s'.kv x).find k = some m) : cfg.holds k m.data.length = true := by
  have hput : ∀ {key v : List UInt8} {t : Lamport}, cfg.holds key v.length = true →
      s'.kv x = ((s.kv x).put key v t).1 → cfg.holds k m.data.length = true := by
    intro key v t hv hkv
    rw [hkv] at hf
    rcases KVStore.put_some hf with hold | ⟨rfl, rfl⟩
    · exact h.stored x k m hold
    · exact hv
  rcases stored_of_moved hm x with hkv | ⟨i, c, type, buf, answer, rfl, hi, hh⟩ |
    ⟨th, c, clock, ctx, node, rfl, hpc, hc, hd, hkv⟩
  · exact h.stored x k m (hkv ▸ hf)
  · have hmem := List.mem_of_getElem? hi
    obtain ⟨ctx, hc, hreq⟩ := hinv.net _ hmem
    have hd := handled_of_reqOk hreq hh
    split at hd
    · exact h.stored x k m (by rw [← hf, hd.1])
    · exact h.stored x k m (by rw [← hf, hd.1])
    · rename_i hcont
      obtain ⟨t, v, himg, hv⟩ := h.write c x type buf ctx hmem hc (Or.inl hcont)
      exact hput hv (hd t v himg)
    · rename_i hcont
      obtain ⟨t, v, himg, hv⟩ := h.write c x type buf ctx hmem hc (Or.inr hcont)
      exact hput hv (hd t v himg)
  · exact hput ((h.ctx ctx (List.mem_of_getElem? hc)).data node hd) hkv

theorem Small.step_read {a : Action Srv} (h : Small cfg s) (hinv : Inv cfg anyLow s)
    (hm : Moved cfg s a s') (x : Srv) (th : Nat) (r : RetValue) (c : Nat) (ctx : Ctx Srv)
    (hr : (s'.pc x th).localResp = some r) (hin : (s'.pc x th).inside.map Prod.fst = some c)
    (hc : s'.ctxs[c]? = some ctx) : cfg.holds ctx.key r.size = true := by
  have ht := table_of_moved hm
  rcases turns_of_moved hm x th with hsame | hturn
  · rw [hsame] at hr hin
    obtain ⟨⟨d, cont⟩, hinside, rfl⟩ := Option.map_eq_some_iff.mp hin
    obtain ⟨ctx₀, hc₀, -⟩ := hinv.pc x th d cont hinside
    rw [(ht.same hc₀ hc).key]
    exact h.read x th r d ctx₀ hr hin hc₀
  · generalize s'.pc x th = q at hturn hr hin
    cases hturn with
    | enter hi hc hpc hrc hcont =>
      rcases hcont with ⟨-, rfl⟩ | ⟨-, rfl⟩ <;> simp [Pc.localResp] at hr
    | @kvGet _ _ c₀ ctx₀ node _ hpc hc₀ hd =>
      obtain ⟨rfl, hr'⟩ : c₀ = c ∧ (s.kv x).get node.key = r := by
        rcases hpc with ⟨-, rfl⟩ | ⟨-, rfl⟩ <;> exact ⟨Option.some.inj hin, Option.some.inj hr⟩
      have hkey := hinv.node_key (hpc.imp And.left And.left) hc₀ hd
      have hsmall := (h.ctx ctx₀ (List.mem_of_getElem? hc₀)).key
      have hle := h.length_valueOf x hsmall
      have hsize := span_read_all (KVStore.get_bytes (s.kv x) node.key)
      rw [(ht.same hc₀ hc).key, ← hr']
      rw [hkey] at hsize ⊢
      simp only [RetValue.toSpan] at hsize
      exact holds_iff.mpr ⟨by omega, (holds_iff.mp hsmall).2⟩
    | choose | send | store | report => simp [Pc.localResp] at hr

theorem Small.step_write {a : Action Srv} (h : Small cfg s) (hinv : Inv cfg anyLow s)
    (hcount : Counted cfg s.ctxs s.net) (hm : Moved cfg s a s') (c : Nat) (dst : Srv)
    (type : ReqType) (buf : MsgBuffer) (ctx : Ctx Srv)
    (hp : .request c dst type buf ∈ s'.net) (hc : s'.ctxs[c]? = some ctx)
    (hcont : ctx.cont = .ackPutTime ∨ ctx.cont = .retGetPutUpdate) :
    ∃ (t : Lamport) (v : List UInt8),
      buf.text.ptr = image (ctx.key ++ t.toBytes) v [] ∧ cfg.holds ctx.key v.length = true := by
  rcases posts_of_moved hm hp with hold | hnew
  · obtain ⟨ctx₀, hc₀, -⟩ := hinv.net _ hold
    have hsame := (table_of_moved hm).same hc₀ hc
    rw [hsame.key]
    exact h.write c dst type buf ctx₀ hold hc₀ (hsame.cont ▸ hcont)
  · generalize hq : Packet.request c dst type buf = p at hnew
    cases hnew with
    | query hctx hq' =>
      injection hq with h1
      rw [← h1, hc, Option.some.injEq] at hctx
      rw [← hctx] at hq'
      rcases hcont with hcont | hcont <;> simp [hcont] at hq'
    | @write x th c₁ clock ctx₁ node d dst ctx' buf hpc hc₁ hd hctx hcont' hop hkey himg =>
      injection hq with h1 h2 h3 h4
      rw [← h1, hc, Option.some.injEq] at hctx
      rw [h4, hctx, hkey]
      exact ⟨clock, node.metaData.data, himg,
        (h.ctx ctx₁ (List.mem_of_getElem? hc₁)).data node hd⟩
    | @writeBack x th c₁ loc ctx₁ node size st v d dst ctx' buf hpc hc₁ hd hst hsize hv hctx hcont'
        hkey himg =>
      injection hq with h1 h2 h3 h4
      rw [← h1, hc, Option.some.injEq] at hctx
      obtain ⟨-, -, hcont₁, -, hdata, -⟩ := hinv.retValue_ctx (by rw [hpc]; rfl) hc₁
      obtain rfl : node = ⟨ctx₁.key, ⟨Lamport.min, []⟩⟩ := Option.some.inj (hd.symm.trans hdata)
      rw [h4, hctx, hkey]
      refine ⟨st.max.1, v, himg, ?_⟩
      have hsmall := h.ctx ctx₁ (List.mem_of_getElem? hc₁)
      have hkey₁ := holds_iff.mp hsmall.key
      have hvlen := span_read_all hv
      have hform : ∀ buf ∈ ctx₁.rep.cache, ∃ e, ValueFor ctx₁.key buf e := by
        intro buf hbuf
        obtain ⟨t, w, himg⟩ := hinv.value_form hc₁ hcont₁ buf hbuf
        exact ⟨(t, w), himg⟩
      -- the value is that of the server's store, or the key and its clock
      rcases size_readResponses (hcount.ctx c₁ ctx₁ hc₁).sized hform hst with hsz | hsz
      · rw [hvlen, hsz]
        exact h.read x th loc c₁ ctx₁ (by rw [hpc]; rfl) (by rw [hpc]; rfl) hc₁
      · rw [hvlen, hsz]
        exact holds_iff.mpr ⟨by simp only; omega, hkey₁.2⟩
    | answer => exact absurd hq (by simp)

theorem Small.step_answer {a : Action Srv} (h : Small cfg s) (hinv : Inv cfg anyLow s)
    (hm : Moved cfg s a s') (c : Nat) (src : Srv) (buf : MsgBuffer)
    (hp : .response c src buf ∈ s'.net) : buf.text.ptr.length ≤ cfg.maxPackageSize := by
  rcases posts_of_moved hm hp with hold | hnew
  · exact h.answer c src buf hold
  · cases hnew with
    | @answer i _ _ type req kv answer hi hh =>
      obtain ⟨ctx, hc, hreq⟩ := hinv.net _ (List.mem_of_getElem? hi)
      obtain ⟨kv', k, v, heq, hsize⟩ := reqHandlers_of_reqOk ⟨s.kv src, none⟩ hreq
      rw [heq, Option.bind_eq_some_iff] at hh
      obtain ⟨m, hm, hh⟩ := hh
      simp only [Option.some.injEq, Handled.mk.injEq, and_true] at hh
      have hkey := (h.ctx ctx (List.mem_of_getElem? hc)).key
      have hroom := holds_iff.mp hkey
      have hvalue := h.length_valueOf src hkey
      simp only at hsize
      rw [← hh.2, encode_eq_some hm, length_image, List.length_nil]
      rcases hsize with hsize | ⟨-, hsize⟩ <;> omega

theorem Small.step {a : Action Srv} (h : Small cfg s) (ha : Accounts cfg s)
    (hok : small cfg s a = true) (hm : Moved cfg s a s') : Small cfg s' where
  ctx := h.step_ctx hok hm
  stored := h.step_stored ha.inv hm
  read := h.step_read ha.inv hm
  write := h.step_write ha.inv ha.counted hm
  answer := h.step_answer ha.inv hm

end Steps

/-! ## 2. One packet for each server -/

/-- The server that handles a request or has answered it. -/
def Packet.peer : Packet Srv → Srv
  | .request _ dst _ _ => dst
  | .response _ src _ => src

/-- The servers that a context has packets for. -/
def peers (net : List (Packet Srv)) (c : Nat) : List Srv :=
  net.filterMap fun p => if p.ctx = c then some p.peer else none

/-- Where no server is twice among the replicas, no server is twice among the packets. -/
def Paired (cfg : Cfg Srv) (ctxs : List (Ctx Srv)) (net : List (Packet Srv)) : Prop :=
  ∀ c ctx reps, ctxs[c]? = some ctx → cfg.reps ctx.srv ctx.key = some reps → reps.Nodup →
    (peers net c).Nodup

section Peers

variable {ctxs ctxs' : List (Ctx Srv)} {net net' : List (Packet Srv)} {c i : Nat}
  {p q : Packet Srv}

theorem length_peers (net : List (Packet Srv)) (c : Nat) :
    (peers net c).length = inFlight net c := by
  induction net with
  | nil => rfl
  | cons p net ih =>
    rw [peers, inFlight] at ih ⊢
    rw [List.filterMap_cons, List.countP_cons]
    by_cases hp : p.ctx = c
    · simp only [if_pos hp, List.length_cons, ih, beq_iff_eq]
    · simp only [if_neg hp, ih, beq_iff_eq, Nat.add_zero]

theorem mem_peers {x : Srv} : x ∈ peers net c ↔ ∃ p ∈ net, p.ctx = c ∧ p.peer = x := by
  simp [peers, List.mem_filterMap]

theorem peers_append (net net' : List (Packet Srv)) (c : Nat) :
    peers (net ++ net') c = peers net c ++ peers net' c := List.filterMap_append

theorem peers_eraseIdx (net : List (Packet Srv)) (i c : Nat) :
    (peers (net.eraseIdx i) c).Sublist (peers net c) :=
  (List.eraseIdx_sublist net i).filterMap _

/-- A packet that is replaced by another for the same context and server. -/
theorem peers_replace (hi : net[i]? = some p) (hctx : q.ctx = p.ctx) (hpeer : q.peer = p.peer) :
    (peers (net.eraseIdx i ++ [q]) c).Perm (peers net c) := by
  obtain ⟨hlt, rfl⟩ := List.getElem?_eq_some_iff.mp hi
  have hsame : peers (q :: net.eraseIdx i) c = peers (net[i] :: net.eraseIdx i) c := by
    simp only [peers, List.filterMap_cons, hctx, hpeer]
  have hlast : (peers (net.eraseIdx i ++ [q]) c).Perm (peers (q :: net.eraseIdx i) c) :=
    (List.perm_append_singleton _ _).filterMap _
  rw [hsame] at hlast
  exact hlast.trans ((List.getElem_cons_eraseIdx_perm hlt).filterMap _)

/-- **One step keeps the packets apart.** -/
theorem Paired.step (h : Paired cfg ctxs net) (hcount : Counted cfg ctxs net)
    (ht : Touches cfg ctxs net ctxs' net') : Paired cfg ctxs' net' := by
  cases ht with
  | @opens ctx reps data type buf hreps hrep =>
    intro c ctx' reps' hc hreps' hnd
    rw [peers_append]
    rcases getElem?_concat hc with hold | ⟨rfl, rfl⟩
    · have hlt := (List.getElem?_eq_some_iff.mp hold).1
      have hnone : peers (reps.map fun r => Packet.request ctxs.length r type buf) c = [] := by
        rw [← List.length_eq_zero_iff, length_peers, inFlight_requests, if_neg (by omega)]
      rw [hnone, List.append_nil]
      exact h c ctx' reps' hold hreps' hnd
    · obtain rfl := Option.some.inj (hreps.symm.trans hreps')
      have hnone : peers net ctxs.length = [] := by
        rw [← List.length_eq_zero_iff, length_peers, inFlight_unknown hcount]
      have hall : peers (reps.map fun r => Packet.request ctxs.length r type buf) ctxs.length
          = reps := by
        simp [peers, List.filterMap_map, Packet.ctx, Packet.peer]
      rw [hnone, List.nil_append, hall]
      exact hnd
  | @answers i c dst type buf buf' hi =>
    intro d ctx reps hc hreps hnd
    have hperm := peers_replace (c := d) (q := .response c dst buf') hi rfl rfl
    exact hperm.nodup_iff.mpr (h d ctx reps hc hreps hnd)
  | @receives i c src buf ctx rep run hi hc hr =>
    intro d ctx' reps hd hreps hnd
    refine (peers_eraseIdx net i d).nodup ?_
    rcases getElem?_set_cases hd with ⟨rfl, rfl⟩ | ⟨-, hold⟩
    · exact h d ctx reps hc hreps hnd
    · exact h d ctx' reps hold hreps hnd
  | keeps => exact h

end Peers

/-! ## 3. Servers that are up -/

/-- The server that takes a step. -/
def Action.server (s : State Srv) : Action Srv → Option Srv
  | .put x _ _ _ | .get x _ _ _ | .advance x _ => some x
  | .request i => match s.net[i]? with
    | some (.request _ dst _ _) => some dst
    | _ => none
  | .response i => match s.net[i]? with
    | some (.response c _ _) => s.ctxs[c]?.map Ctx.srv
    | _ => none

/-- The steps other than calls of the servers that are up. -/
def live (up : Srv → Bool) (s : State Srv) (a : Action Srv) : Bool :=
  !a.isCall && (a.server s).any up

variable [DecidableEq Srv] {up : Srv → Bool}

/-- None of these steps can be taken. -/
def Stalled (cfg : Cfg Srv) (up : Srv → Bool) (s : State Srv) : Prop :=
  ∀ a, live up s a = true → step cfg s a = none

/-- What holds in every state when all calls are small. -/
structure Sturdy (cfg : Cfg Srv) (s : State Srv) : Prop where
  accounts : Accounts cfg s
  sizes : Small cfg s
  paired : Paired cfg s.ctxs s.net

theorem Sturdy.step {a : Action Srv} (h : Sturdy cfg s) (hok : small cfg s a = true)
    (hm : Moved cfg s a s') : Sturdy cfg s' where
  accounts := h.accounts.step hm
  sizes := h.sizes.step h.accounts hok hm
  paired := h.paired.step h.accounts.counted (touches_of_moved hm)

theorem sturdy_of_run (h : Run cfg (small cfg) (State.init Srv) s) : Sturdy cfg s := by
  refine Run.invariant (fun x y hx hr => ?_) h ⟨.init, .init, fun c ctx reps hc => ?_⟩
  · obtain ⟨a, ha⟩ := hr
    obtain ⟨hok, ha⟩ := Run.guard_eq_some.mp ha
    exact hx.step hok (step_cases ha)
  · exact absurd hc (by simp [State.init])

omit [DecidableEq Srv] in
theorem small_of_live {a : Action Srv} (h : live up s a = true) : small cfg s a = true := by
  cases a with
  | put | get => exact absurd h (by simp [live, Action.isCall])
  | request | response | advance => rfl

/-- The threads of a server that is up are in their event loops when nothing can be done. -/
theorem Stalled.idle (h : Stalled cfg up s) (hs : Sturdy cfg s)
    (hpkg : cfg.maxPackageSize < 2 ^ 62) {x : Srv} (hx : up x = true) (th : Nat) :
    s.pc x th = .idle := by
  by_contra hpc
  obtain ⟨s', hs'⟩ := exists_advance (hs.sizes.fits hs.accounts.inv hpkg) hs.accounts.inv
    hs.accounts.counted hs.accounts.intact hpc
  have hnone := h (.advance x th) (by simp [live, Action.isCall, Action.server, hx])
  exact absurd (hnone.symm.trans hs') (by simp)

/-- And what is still in flight for it waits for servers that are down. -/
theorem Stalled.peer_down (h : Stalled cfg up s) (hs : Sturdy cfg s)
    (hpkg : cfg.maxPackageSize < 2 ^ 62) {p : Packet Srv} {ctx : Ctx Srv} (hp : p ∈ s.net)
    (hc : s.ctxs[p.ctx]? = some ctx) (hx : up ctx.srv = true) : up p.peer = false := by
  obtain ⟨i, hlt, hget⟩ := List.mem_iff_getElem.mp hp
  have hi : s.net[i]? = some p := List.getElem?_eq_some_iff.mpr ⟨hlt, hget⟩
  by_contra hup
  rw [Bool.not_eq_false] at hup
  cases p with
  | request c dst type buf =>
    obtain ⟨s', hs'⟩ := exists_request (hs.sizes.fits hs.accounts.inv hpkg) hs.accounts.inv hi
    have hnone := h (.request i) (by
      simp only [live, Action.isCall, Action.server, hi]
      exact hup)
    exact absurd (hnone.symm.trans hs') (by simp)
  | response c src buf =>
    have hc' : s.ctxs[c]? = some ctx := hc
    obtain ⟨s', hs'⟩ := exists_response hs.accounts.intact hi hc' (h.idle hs hpkg hx _)
    have hnone := h (.response i) (by simp [live, Action.isCall, Action.server, hi, hc', hx])
    exact absurd (hnone.symm.trans hs') (by simp)

omit [DecidableEq Srv] in
/-- A member of a group sends to the two others, another server to none. -/
theorem GroupOfThree.exists_reps [DecidableEq Srv] {k : List UInt8} {g : Finset Srv}
    (h : GroupOfThree cfg k g) (x : Srv) :
    ∃ reps, cfg.reps x k = some reps ∧ reps.Nodup ∧ reps.length = if x ∈ g then 2 else 0 := by
  by_cases hx : x ∈ g
  · obtain ⟨reps, hreps, hnd, hiff⟩ := h.member x hx
    have herase : reps.toFinset = g.erase x := by
      ext y
      rw [List.mem_toFinset, hiff, Finset.mem_erase, and_comm]
    refine ⟨reps, hreps, hnd, ?_⟩
    rw [← List.toFinset_card_of_nodup hnd, herase, Finset.card_erase_of_mem hx, h.card, if_pos hx]
  · exact ⟨[], h.other x hx, List.nodup_nil, by rw [if_neg hx]; rfl⟩

/-- **At most one response of a context is missing** when at most one server of its group is down,
so the context is `done`. -/
theorem Stalled.done (h : Stalled cfg up s) (hs : Sturdy cfg s)
    (hpkg : cfg.maxPackageSize < 2 ^ 62) {g : Finset Srv} {c : Nat} {ctx : Ctx Srv}
    (hg : GroupOfThree cfg ctx.key g) (hdown : (g.filter fun x => up x = false).card ≤ 1)
    (hc : s.ctxs[c]? = some ctx) (hx : up ctx.srv = true) (hn : ctx.rep.nMsgs ≠ 0) :
    ctx.rep.done = true := by
  by_contra hd
  rw [Bool.not_eq_true] at hd
  have hcount := hs.accounts.counted.ctx c ctx hc
  obtain ⟨reps, hreps, hlen⟩ := hcount.group
  obtain ⟨reps', hreps', hnd, hsize⟩ := hg.exists_reps ctx.srv
  obtain rfl := Option.some.inj (hreps.symm.trans hreps')
  have htwo : reps.length = 2 := by
    split at hsize <;> omega
  -- the packets are for different servers of the group that are down
  have hsub : (peers s.net c).toFinset ⊆ g.filter fun x => up x = false := by
    intro y hy
    obtain ⟨p, hp, hpc, rfl⟩ := mem_peers.mp (List.mem_toFinset.mp hy)
    subst hpc
    refine Finset.mem_filter.mpr ⟨?_, h.peer_down hs hpkg hp hc hx⟩
    have hcontacts : Contacts cfg ctx.srv ctx.key p.peer := by
      have hok := hs.accounts.inv.net p hp
      cases p with
      | request | response =>
        obtain ⟨ctx', hc', hok⟩ := hok
        obtain rfl := Option.some.inj (hc.symm.trans hc')
        exact hok.contacts
    exact (hg.of_contacts hcontacts).2.1
  have hone : inFlight s.net c ≤ 1 := by
    rw [← length_peers, ← List.toFinset_card_of_nodup (hs.paired c ctx reps hc hreps hnd)]
    exact (Finset.card_le_card hsub).trans hdown
  have hflight := hcount.flight
  have hthreshold := hcount.threshold hd
  omega

omit [DecidableEq Srv] in
/-- A context that an operation waits for belongs to the thread that called it. -/
theorem Inv.caller_of_ctx {c : Nat} {ctx : Ctx Srv} (h : Inv cfg anyLow s)
    (hc : s.ctxs[c]? = some ctx) (hcont : ctx.cont ≠ .retGetPutUpdate) :
    ∃ ctx₀, s.ctxs[ctx.op]? = some ctx₀ ∧ ctx₀.srv = ctx.srv ∧ ctx₀.thread = ctx.thread := by
  have hform := (h.ctx c ctx hc).form
  cases hcont' : ctx.cont with
  | getTime | retValue =>
    rw [hcont'] at hform
    exact ⟨ctx, hform.1 ▸ hc, rfl, rfl⟩
  | ackPutTime =>
    rw [hcont'] at hform
    obtain ⟨ctx₀, hc₀, -, hsrv, hthread, -⟩ := hform
    exact ⟨ctx₀, hc₀, hsrv, hthread⟩
  | retGetPutUpdate => exact absurd hcont' hcont

/-- **When nothing can be done, the operations of the servers that are up have ended.** -/
theorem Stalled.completed (h : Stalled cfg up s) (hs : Sturdy cfg s)
    (hpkg : cfg.maxPackageSize < 2 ^ 62)
    (hg : ∀ k ≠ [], ∃ g, GroupOfThree cfg k g ∧ (g.filter fun x => up x = false).card ≤ 1)
    {op : Nat} {ctx : Ctx Srv} (hop : op ∈ s.issued) (hc : s.ctxs[op]? = some ctx)
    (hx : up ctx.srv = true) : op ∈ s.completed := by
  have hwaiting : s.waiting op = 0 := by
    rw [State.waiting, List.countP_eq_zero]
    intro ctx' hmem hw
    simp only [Ctx.waits, Bool.and_eq_true, beq_iff_eq, bne_iff_ne, Bool.not_eq_true'] at hw
    obtain ⟨⟨⟨hop', hcont⟩, hdone⟩, hn⟩ := hw
    obtain ⟨d, hlt, hget⟩ := List.mem_iff_getElem.mp hmem
    have hd : s.ctxs[d]? = some ctx' := List.getElem?_eq_some_iff.mpr ⟨hlt, hget⟩
    have hsrv : ctx'.srv = ctx.srv := by
      obtain ⟨ctx₀, hc₀, hsrv, -⟩ := hs.accounts.inv.caller_of_ctx hd hcont
      rw [hop'] at hc₀
      rw [← hsrv, Option.some.inj (hc₀.symm.trans hc)]
    obtain ⟨g, hgk, hdown⟩ := hg ctx'.key (key_ne_nil hs.accounts hd)
    have htrue := h.done hs hpkg hgk hdown hd (hsrv ▸ hx) hn
    rw [hdone] at htrue
    exact absurd htrue (by simp)
  have hrunning : s.running op = 0 := by
    rw [State.running, hc]
    refine if_neg ?_
    rw [h.idle hs hpkg hx]
    simp [Pc.works]
  have hcons := hs.accounts.conserved op
  rw [List.count_eq_one_of_mem hs.accounts.nodup hop, hwaiting, hrunning] at hcons
  exact List.count_pos_iff.mp (by omega)

/-! ## 4. Schedules -/

/-- A schedule of live steps is a run, and the work bounds it. -/
theorem run_of_schedule {as : List (Action Srv)}
    (h : Run.exec (Run.guard (live up) (step cfg)) s as = some s') (hs : Sturdy cfg s) :
    Run cfg (small cfg) s s' ∧ Sturdy cfg s' ∧ as.length + s'.work ≤ s.work := by
  have hmoves : ∀ x y, Run.Moves (Run.guard (live up) (step cfg)) x y →
      Run.Moves (Run.guard (small cfg) (step cfg)) x y := by
    rintro x y ⟨a, ha⟩
    obtain ⟨hlive, ha⟩ := Run.guard_eq_some.mp ha
    exact ⟨a, Run.guard_eq_some.mpr ⟨small_of_live hlive, ha⟩⟩
  have hrun : Run cfg (small cfg) s s' := Relation.ReflTransGen.mono hmoves _ _ (Run.of_exec h)
  have hkeep : ∀ x y, Sturdy cfg x → Run.Moves (Run.guard (small cfg) (step cfg)) x y →
      Sturdy cfg y := by
    rintro x y hx ⟨a, ha⟩
    obtain ⟨hok, ha⟩ := Run.guard_eq_some.mp ha
    exact hx.step hok (step_cases ha)
  refine ⟨hrun, Run.invariant hkeep hrun hs, ?_⟩
  refine (Run.length_le (I := Sturdy cfg) (f := State.work) (fun x a y hx hxy => ?_) h hs).2
  obtain ⟨hlive, ha⟩ := Run.guard_eq_some.mp hxy
  have hm := step_cases ha
  have hwork := work_step hx.accounts.inv hx.accounts.counted hm
  refine ⟨hx.step (small_of_live hlive) hm, ?_⟩
  cases a with
  | put | get => exact absurd hlive (by simp [live, Action.isCall])
  | request | response | advance => exact hwork

theorem exists_live_of_not_stalled (h : ¬ Stalled cfg up s) :
    ∃ a s', live up s a = true ∧ step cfg s a = some s' := by
  unfold Stalled at h
  push Not at h
  obtain ⟨a, hlive, ha⟩ := h
  obtain ⟨s', hs'⟩ := Option.ne_none_iff_exists'.mp ha
  exact ⟨a, s', hlive, hs'⟩

/-- **One server of each group may be down.**  A schedule of the others has no more steps than there
is work, and as long as an operation of theirs has not ended one of them can take a step. -/
theorem ends_of_schedule (hpkg : cfg.maxPackageSize < 2 ^ 62)
    (hg : ∀ k ≠ [], ∃ g, GroupOfThree cfg k g ∧ (g.filter fun x => up x = false).card ≤ 1)
    (hr : Run cfg (small cfg) (State.init Srv) s) {as : List (Action Srv)}
    (h : Run.exec (Run.guard (live up) (step cfg)) s as = some s') :
    as.length + s'.work ≤ s.work ∧
      ((∃ a t, live up s' a = true ∧ step cfg s' a = some t) ∨
        ∀ op ∈ s'.issued, ∀ ctx, s'.ctxs[op]? = some ctx → up ctx.srv = true →
          op ∈ s'.completed) := by
  obtain ⟨-, hs', hle⟩ := run_of_schedule h (sturdy_of_run hr)
  refine ⟨hle, ?_⟩
  by_cases hstalled : Stalled cfg up s'
  · exact Or.inr fun op hop ctx hc hx => hstalled.completed hs' hpkg hg hop hc hx
  · exact Or.inl (exists_live_of_not_stalled hstalled)

/-- **With no server down the servers of a key come to agree on its clock**: as long as two of them
do not, a step can be taken. -/
theorem agree_of_schedule (hpkg : cfg.maxPackageSize < 2 ^ 62) {k : List UInt8} {g : Finset Srv}
    (hg : GroupOfThree cfg k g) (hr : Run cfg (small cfg) (State.init Srv) s)
    {as : List (Action Srv)}
    (h : Run.exec (Run.guard (live fun _ => true) (step cfg)) s as = some s') :
    as.length + s'.work ≤ s.work ∧
      ((∃ a t, a.isCall = false ∧ step cfg s' a = some t) ∨
        ∀ x ∈ g, ∀ y ∈ g, (s'.kv x).clockOf k = (s'.kv y).clockOf k) := by
  obtain ⟨hrun, hs', hle⟩ := run_of_schedule h (sturdy_of_run hr)
  refine ⟨hle, ?_⟩
  by_cases hstalled : Stalled cfg (fun _ => true) s'
  · have hsettled : Settled s' k := by
      refine settled_of_idle hs'.accounts.inv (fun c dst buf hp => ?_)
        fun ctx _ => hstalled.idle hs' hpkg rfl _
      obtain ⟨ctx, hc, -⟩ := hs'.accounts.inv.net _ hp
      exact absurd (hstalled.peer_down hs' hpkg hp hc rfl) (by simp)
    exact Or.inr fun x hx y hy => clockOf_eq_of_settled hg (hr.trans hrun) hsettled hx hy
  · obtain ⟨a, t, hlive, ha⟩ := exists_live_of_not_stalled hstalled
    refine Or.inl ⟨a, t, ?_, ha⟩
    simp only [live, Bool.and_eq_true, Bool.not_eq_true'] at hlive
    exact hlive.1

/-- The third server never gets to its requests. -/
def secondAnswers : List (Action Trio) :=
  [.request 0, .response 1, .advance .first 0, .advance .first 0, .advance .first 0,
    .advance .first 0, .request 1, .response 2]

/-- A put with the third server down. -/
theorem ends_of_schedule_trio : ∃ s', Run.exec (Run.guard (live (· ≠ .third)) (step trio))
    (trioAfter (small trio) [.put .first 0 trioKey trioValue]) secondAnswers = some s' ∧
      8 + s'.work ≤ (trioAfter (small trio) [.put .first 0 trioKey trioValue]).work ∧
      ((∃ a t, live (· ≠ .third) s' a = true ∧ step trio s' a = some t) ∨
        ∀ op ∈ s'.issued, ∀ ctx, s'.ctxs[op]? = some ctx → (decide (ctx.srv ≠ .third)) = true →
          op ∈ s'.completed) := by
  have hr := run_trioAfter (small trio) [.put .first 0 trioKey trioValue] (by decide +kernel)
  obtain ⟨s', hs'⟩ := Option.isSome_iff_exists.mp
    (show (Run.exec (Run.guard (live (· ≠ .third)) (step trio))
      (trioAfter (small trio) [.put .first 0 trioKey trioValue]) secondAnswers).isSome = true by
        decide +kernel)
  refine ⟨s', hs', ends_of_schedule (by decide) (fun k hk => ?_) hr hs'⟩
  obtain ⟨g, hg⟩ := groups_trio k hk
  exact ⟨g, hg, (Finset.card_le_card (Finset.filter_subset_filter _ (Finset.subset_univ g))).trans
    (by decide)⟩

/-- A put and all its packets. -/
theorem agree_of_schedule_trio : ∃ s', Run.exec (Run.guard (live fun _ => true) (step trio))
    (trioAfter (small trio) [.put .first 0 trioKey trioValue]) secondAnswers = some s' ∧
      8 + s'.work ≤ (trioAfter (small trio) [.put .first 0 trioKey trioValue]).work ∧
      ((∃ a t, a.isCall = false ∧ step trio s' a = some t) ∨
        ∀ x ∈ Finset.univ, ∀ y ∈ Finset.univ,
          (s'.kv x).clockOf trioKey = (s'.kv y).clockOf trioKey) := by
  have hr := run_trioAfter (small trio) [.put .first 0 trioKey trioValue] (by decide +kernel)
  obtain ⟨s', hs'⟩ := Option.isSome_iff_exists.mp
    (show (Run.exec (Run.guard (live fun _ => true) (step trio))
      (trioAfter (small trio) [.put .first 0 trioKey trioValue]) secondAnswers).isSome = true by
        decide +kernel)
  exact ⟨s', hs', agree_of_schedule (by decide) groupOfThree_trio hr hs'⟩

end Avocado
