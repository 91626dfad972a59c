/-
# Contexts that have received their responses

What `GetTime` and `RetValue` find when they are entered: a context through which the responses
have gone in some order (`received`), its cache the list of these responses and its
`max_resp_size` at least the size of each.  `reduceResp_eq` is the rule for a reduction over such
a context: it is a fold over what the responses carry.  The rule of `Abd/Replica.lean` speaks of
reductions that are known to end.

`StampFor` and `ValueFor` are the two forms a well-formed response has.
-/
import Avocado.Abd.Steps

namespace Avocado

/-! ## 1. Responses -/

/-- The answer to `GetTimeStamp` with clock `t`. -/
def StampFor (buf : MsgBuffer) (t : Lamport) : Prop := buf.text.ptr = image t.toBytes [] []

/-- The answer to `GetValueTimeStamp` for key `k`: an entry's clock and value, or the least clock
and no value. -/
def ValueFor (k : List UInt8) (buf : MsgBuffer) (e : Lamport × List UInt8) : Prop :=
  buf.text.ptr = image (k ++ e.1.toBytes) e.2 []

theorem StampFor.nonempty {buf : MsgBuffer} {t : Lamport} (h : StampFor buf t) :
    0 < buf.text.ptr.length := by
  rw [h, length_image]
  omega

theorem ValueFor.nonempty {k : List UInt8} {buf : MsgBuffer} {e : Lamport × List UInt8}
    (h : ValueFor k buf e) : 0 < buf.text.ptr.length := by
  rw [h, length_image]
  omega

/-- What a response carries fits in memory. -/
theorem fits_of_valueFor {k : List UInt8} {resps : List MsgBuffer}
    {es : List (Lamport × List UInt8)} (h : List.Forall₂ (ValueFor k) resps es) :
    ∀ e ∈ es, 24 + (k.length + e.2.length) < 2 ^ 64 := by
  induction h with
  | nil => exact fun e he => absurd he List.not_mem_nil
  | @cons buf e resps es hbuf _ ih =>
    refine List.forall_mem_cons.mpr ⟨?_, ih⟩
    have hlt := buf.text.fits
    rw [hbuf, length_image, List.length_append, Lamport.length_toBytes] at hlt
    omega

theorem nonempty_of_valueFor {k : List UInt8} {resps : List MsgBuffer}
    {es : List (Lamport × List UInt8)} (h : List.Forall₂ (ValueFor k) resps es) :
    ∀ resp ∈ resps, 0 < resp.text.ptr.length := by
  induction h with
  | nil => exact fun r hr => absurd hr List.not_mem_nil
  | cons hbuf _ ih => exact List.forall_mem_cons.mpr ⟨hbuf.nonempty, ih⟩

/-! ## 2. Contexts -/

namespace ReplicaContext

/-- The context after some responses, in this order. -/
def received (ctx : ReplicaContext) : List MsgBuffer → Option ReplicaContext
  | [] => some ctx
  | resp :: rest => do
    let (ctx, _) ← ctx.reqConts resp
    ctx.received rest

/-- `max_resp_size` is enough for every cached response. -/
structure Sized (ctx : ReplicaContext) : Prop where
  le : ∀ c ∈ ctx.cache, c.text.ptr.length ≤ ctx.maxRespSize
  lt : ctx.maxRespSize < 2 ^ 64

variable {ctx ctx' : ReplicaContext} {resp : MsgBuffer} {run : Bool}

theorem exists_reqConts (ctx : ReplicaContext) (hb : 0 < resp.text.ptr.length) :
    ∃ r, ctx.reqConts resp = some r := by
  simp only [reqConts, addToCache, if_pos hb, Option.bind_eq_bind, Option.bind_some]
  split
  · exact ⟨_, rfl⟩
  · split
    · exact ⟨_, rfl⟩
    · exact ⟨_, rfl⟩

theorem Sized.reqConts (hs : ctx.Sized) (h : ctx.reqConts resp = some (ctx', run)) :
    ctx'.Sized := by
  have hcache := (reqConts_cases h).1
  have hmax : ctx'.maxRespSize = max resp.text.ptr.length ctx.maxRespSize := by
    simp only [ReplicaContext.reqConts, addToCache] at h
    split at h
    · simp only [Option.bind_eq_bind, Option.bind_some] at h
      have hmax : ∀ {c : ReplicaContext × Bool}, c.1.maxRespSize =
          (if resp.text.ptr.length > ctx.maxRespSize then resp.text.ptr.length
            else ctx.maxRespSize) → c = (ctx', run) →
          ctx'.maxRespSize = max resp.text.ptr.length ctx.maxRespSize := by
        rintro c hc rfl
        rw [hc]
        split
        · exact (max_eq_left (by omega)).symm
        · exact (max_eq_right (by omega)).symm
      split at h
      · exact hmax rfl (Option.some.inj h)
      · split at h
        · exact hmax rfl (Option.some.inj h)
        · exact hmax rfl (Option.some.inj h)
    · exact absurd h (by simp)
  constructor
  · intro c hc
    rw [hcache] at hc
    rw [hmax]
    rcases List.mem_append.mp hc with hc | hc
    · exact (hs.le c hc).trans (le_max_right _ _)
    · rw [List.mem_singleton.mp hc]
      exact le_max_left _ _
  · rw [hmax]
    exact max_lt resp.text.fits hs.lt

/-- **A context after its responses**: they are cached in their order, behind those it had. -/
theorem received_spec {resps : List MsgBuffer} (hs : ctx.Sized)
    (h : ctx.received resps = some ctx') :
    ctx'.Sized ∧ ctx'.cache = ctx.cache ++ resps ∧ ctx'.nMsgs = ctx.nMsgs ∧
      ctx'.data = ctx.data := by
  induction resps generalizing ctx with
  | nil =>
    rw [received, Option.some.injEq] at h
    subst h
    exact ⟨hs, (List.append_nil _).symm, rfl, rfl⟩
  | cons resp rest ih =>
    simp only [received, Option.bind_eq_bind, Option.bind_eq_some_iff] at h
    obtain ⟨⟨ctx₁, run⟩, hr, h⟩ := h
    obtain ⟨hcache, hdata, hn, -⟩ := reqConts_cases hr
    obtain ⟨hs', hcache', hn', hdata'⟩ := ih (hs.reqConts hr) h
    exact ⟨hs', by rw [hcache', hcache, List.append_assoc]; rfl, hn'.trans hn, hdata'.trans hdata⟩

theorem exists_received {resps : List MsgBuffer} (hb : ∀ r ∈ resps, 0 < r.text.ptr.length) :
    ∃ ctx', ctx.received resps = some ctx' := by
  induction resps generalizing ctx with
  | nil => exact ⟨ctx, rfl⟩
  | cons resp rest ih =>
    obtain ⟨⟨ctx₁, run⟩, hr⟩ := exists_reqConts ctx (hb resp List.mem_cons_self)
    obtain ⟨ctx', h⟩ := @ih ctx₁ fun r hr => hb r (List.mem_cons_of_mem resp hr)
    exact ⟨ctx', by simp only [received, hr, Option.bind_eq_bind, Option.bind_some, h]⟩

/-- A new context. -/
theorem sized_new (n : Nat) (data : Option Node) : Sized { nMsgs := n, data } where
  le := by simp
  lt := by simp

/-- **The rule for `reduce_resp`, as an equation.**  Each response carries something (`R`), and `f`
does with a response what `g` does with what it carries, whatever the array holds behind the
response: the reduction is then the fold of `g`. -/
theorem reduceResp_eq {T E : Type} {f : T → Msg → Option T} {g : T → E → Option T}
    {R : MsgBuffer → E → Prop} {es : List E} (hs : ctx.Sized)
    (hform : List.Forall₂ R ctx.cache es)
    (hfg : ∀ (c : MsgBuffer) (e : E) (r : T) (msg : Msg) (junk : List UInt8),
      R c e → msg.ptr = c.text.ptr ++ junk → f r msg = g r e) (init : T) :
    ctx.reduceResp f init = es.foldlM g init := by
  have main : ∀ {todo : List MsgBuffer} {es : List E}, List.Forall₂ R todo es →
      ∀ (r : T) (msg : Msg), (∀ c ∈ todo, c ∈ ctx.cache) → msg.ptr.length = ctx.maxRespSize →
      reduceFrom f todo r msg = es.foldlM g r := by
    intro todo es hform
    induction hform with
    | nil => exact fun _ _ _ _ => rfl
    | @cons c e todo es hce _ ih =>
      intro r msg hmem hlen
      have hle : 0 + c.text.ptr.length ≤ msg.ptr.length := by
        rw [Nat.zero_add, hlen]
        exact hs.le c (hmem c List.mem_cons_self)
      obtain ⟨msg', hm, hptr⟩ := Msg.exists_store msg hle
      have hjunk : msg'.ptr = c.text.ptr ++ msg.ptr.drop c.text.ptr.length := by
        simpa using hptr
      have hlen' : msg'.ptr.length = ctx.maxRespSize := by
        rw [hjunk, List.length_append, List.length_drop]
        omega
      simp only [reduceFrom, hm, Option.bind_eq_bind, Option.bind_some, List.foldlM_cons,
        hfg c e r msg' _ hce hjunk]
      congr 1
      funext r'
      exact ih r' msg' (fun d hd => hmem d (List.mem_cons_of_mem _ hd)) hlen'
  have ha := Msg.alloc_eq hs.lt
  simp only [reduceResp, ha, Option.bind_eq_bind, Option.bind_some]
  exact main hform init _ (fun c hc => hc) (by simp)

end ReplicaContext

end Avocado
