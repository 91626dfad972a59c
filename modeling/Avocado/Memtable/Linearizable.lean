/-
# The memtable is a linearizable highest-clock-wins map

For concurrent calls, in every run in which no get decrypts a chunk that was changed
(`AuthenticRun`); a run without the host is one (`authentic_of_honest`).  `Memtable/Trace.lean` has
the linearization: every call takes effect at one moment, as an operation of the sequential store.
This file reads off what that means for callers (`HighestClockWins`): which puts return true, which
entry a key has when its puts are done (`newest_of_linear`), and what a get returns.
-/
import Avocado.Memtable.Trace

namespace Avocado.Memtable

open Lookup

variable {S : AtomicSet VarKeySizeNode} {cipher : CipherSsl} {s s' : State S}

/-! ## 1. Runs without the host -/

/-- Every chunk is as the constructor wrote it. -/
structure Mem.Clean (cipher : CipherSsl) (m : Mem S) : Prop where
  length : m.slab.length = m.metas.length
  chunk : ∀ {p : Nat} {md}, m.metas[p]? = some md → m.slab[p]? = some (cipher.encrypt md.value).1

theorem Mem.Clean.intact {m : Mem S} (h : m.Clean cipher) (hc : cipher.Lawful)
    (hm : m.Sealed cipher) (p : Nat) : m.intact cipher p = true := by
  unfold Mem.intact
  cases hmd : m.metas[p]? with
  | none => rfl
  | some md =>
    obtain ⟨-, hsize⟩ := hm md (List.mem_of_getElem? hmd)
    simp only [h.chunk hmd, beq_iff_eq]
    rw [List.take_of_length_le (by rw [hc.length_encrypt, hsize])]

theorem Mem.Clean.step (hS : S.Lawful VarKeySizeNode.lt) (h : s.mem.Clean cipher) {a : Action}
    (ha : honest s a = true) (hstep : step cipher s a = some s') : s'.mem.Clean cipher := by
  rcases step_cases hstep with ⟨key, value, clock, -, rfl⟩ | ⟨key, -, rfl⟩ |
    ⟨i, spurious, c, e, -, hi, he, rfl⟩ | ⟨p, bytes, rfl, -⟩
  · constructor
    · simp [State.invoke, Mem.createNode, h.length]
    · intro p md hmd
      rcases getElem?_concat hmd with hmd | ⟨rfl, rfl⟩
      · exact getElem?_concat_left (h.chunk hmd)
      · simp only [State.invoke, Mem.createNode]
        rw [← h.length, List.getElem?_concat_length]
  · exact h
  · have hnext := next_cases hS he
    constructor
    · simp only [State.apply]
      rw [hnext.slab_eq, hnext.metas_eq, h.length]
    · intro p md hmd
      simp only [State.apply] at hmd ⊢
      rw [hnext.metas_eq] at hmd
      rw [hnext.slab_eq]
      exact h.chunk hmd
  · exact absurd ha (by simp [honest])

/-- **A run without the host is authentic.** -/
theorem authentic_of_honest (hS : S.Lawful VarKeySizeNode.lt) (hc : cipher.Lawful) {s₀ : State S}
    (h0 : Inv cipher s₀) (hclean : s₀.mem.Clean cipher) (h : HonestRun cipher s₀ s) :
    AuthenticRun cipher s₀ s ∧ s.mem.Clean cipher := by
  refine Run.invariant (I := fun x => AuthenticRun cipher s₀ x ∧ x.mem.Clean cipher)
    (fun x y hx hr => ?_) h ⟨.refl, hclean⟩
  obtain ⟨a, ha⟩ := hr
  obtain ⟨hhon, hstep⟩ := Run.guard_eq_some.mp ha
  have henc : x.mem.Sealed cipher := (inv_of_run hS hc h0 hx.1).enc
  have hauth : authentic cipher x a = true := by
    unfold authentic
    split
    · split
      · exact hx.2.intact hc henc _
      · rfl
    · rfl
  exact ⟨hx.1.tail ⟨a, Run.guard_eq_some.mpr ⟨hauth, hstep⟩⟩, hx.2.step hS hhon hstep⟩

theorem clean_init : (State.init S).mem.Clean cipher where
  length := rfl
  chunk := by
    intro p md hmd
    exact absurd hmd (by simp [State.init])

/-- No step lowers the clock of a key. -/
theorem le_of_run (hS : S.Lawful VarKeySizeNode.lt) (hc : cipher.Lawful) {s₀ : State S}
    (h0 : Inv cipher s₀) (h : AuthenticRun cipher s₀ s) : s₀.mem.Le s.mem := by
  have hboth : Inv cipher s ∧ s₀.mem.Le s.mem := by
    refine Run.invariant (I := fun x => Inv cipher x ∧ s₀.mem.Le x.mem) (fun x y hx hr => ?_) h
      ⟨h0, Mem.Le.refl _⟩
    obtain ⟨a, ha⟩ := hr
    obtain ⟨hauth, hstep⟩ := Run.guard_eq_some.mp ha
    refine ⟨hx.1.step hS hc hauth hstep, hx.2.trans ?_⟩
    rcases step_cases hstep with ⟨key, value, clock, -, rfl⟩ | ⟨key, -, rfl⟩ |
      ⟨i, spurious, c, e, -, hi, he, rfl⟩ | ⟨p, bytes, -, rfl⟩
    · exact Mem.le_createNode _ _ _ _
    · exact Mem.Le.refl _
    · exact (next_cases hS he).le (hx.1.call hi)
    · exact ⟨subset_rfl, id, fun hmd => ⟨_, hmd, le_refl _⟩⟩
  exact hboth.2

/-! ## 2. The entry of a key -/

variable {h : List (History.Event Op Res)} {e : History.Event Op Res} {key : List UInt8}

/-- `o` is the entry of a put with the greatest clock among the puts on the key that have taken
effect, and of the only one with that clock that was installed; or there is none. -/
def Newest (h : List (History.Event Op Res)) (key : List UInt8) : Option MetaData → Prop
  | none => ∀ j value clock r, .point j (.put key value clock) r ∉ h
  | some en => ∃ i, .point i (.put key en.data en.clock) (.put true) ∈ h ∧
      (∀ j value clock r, .point j (.put key value clock) r ∈ h → clock ≤ en.clock) ∧
      ∀ j value, .point j (.put key value en.clock) (.put true) ∈ h → j = i

/-- Events that are not points of puts on the key do not matter. -/
theorem Newest.frame {o : Option MetaData} (hn : Newest h key o)
    (he : ∀ j value clock r, e ≠ .point j (.put key value clock) r) : Newest (h ++ [e]) key o := by
  have hmem : ∀ j value clock r, .point j (.put key value clock) r ∈ h ++ [e] →
      .point j (.put key value clock) r ∈ h := by
    intro j value clock r hin
    rcases List.mem_append.mp hin with hin | hin
    · exact hin
    · exact absurd (List.mem_singleton.mp hin).symm (he j value clock r)
  cases o with
  | none => exact fun j value clock r hin => hn j value clock r (hmem _ _ _ _ hin)
  | some en =>
    obtain ⟨i, hi, hmax, huniq⟩ := hn
    exact ⟨i, List.mem_append_left _ hi, fun j value clock r hin => hmax j value clock r
      (hmem _ _ _ _ hin), fun j value hin => huniq j value (hmem _ _ _ _ hin)⟩

/-- A put that was refused: its clock is not greater. -/
theorem Newest.refused {en : MetaData} (hn : Newest h key (some en)) {i : Nat} {value : List UInt8}
    {clock : Lamport} (hle : clock ≤ en.clock) :
    Newest (h ++ [.point i (.put key value clock) (.put false)]) key (some en) := by
  obtain ⟨i', hi, hmax, huniq⟩ := hn
  refine ⟨i', List.mem_append_left _ hi, ?_, ?_⟩
  · intro j v c r hin
    rcases List.mem_append.mp hin with hin | hin
    · exact hmax j v c r hin
    · cases List.mem_singleton.mp hin
      exact hle
  · intro j v hin
    rcases List.mem_append.mp hin with hin | hin
    · exact huniq j v hin
    · exact absurd (List.mem_singleton.mp hin) (by simp)

/-- A put that was installed: the key was absent, or its entry older. -/
theorem Newest.installed {o : Option MetaData} (hn : Newest h key o) {i : Nat}
    {value : List UInt8} {clock : Lamport} (hlt : ∀ en, o = some en → en.clock < clock) :
    Newest (h ++ [.point i (.put key value clock) (.put true)]) key (some ⟨clock, value⟩) := by
  have hold : ∀ j v c r, .point j (.put key v c) r ∈ h → c < clock := by
    intro j v c r hin
    cases o with
    | none => exact absurd hin (hn j v c r)
    | some en =>
      obtain ⟨-, -, hmax, -⟩ := hn
      exact lt_of_le_of_lt (hmax j v c r hin) (hlt en rfl)
  refine ⟨i, List.mem_append_right _ (List.mem_singleton.mpr rfl), ?_, ?_⟩
  · intro j v c r hin
    rcases List.mem_append.mp hin with hin | hin
    · exact le_of_lt (hold j v c r hin)
    · cases List.mem_singleton.mp hin
      exact le_refl _
  · intro j v hin
    rcases List.mem_append.mp hin with hin | hin
    · exact absurd (hold j v clock _ hin) (lt_irrefl _)
    · cases List.mem_singleton.mp hin
      rfl

/-- **The highest clock wins.** -/
theorem newest_of_linear (hl : kvObject.Linear h) (key : List UInt8) :
    Newest h key ((kvObject.after h).find key) := by
  induction h using List.reverseRecOn with
  | nil => exact fun j value clock r => List.not_mem_nil
  | append_singleton h e ih =>
    obtain ⟨hl, hallowed⟩ := History.Object.linear_concat.mp hl
    have hn := ih hl
    rw [History.Object.after_concat]
    cases e with
    | call i op => exact hn.frame (by simp)
    | ret i op r => exact hn.frame (by simp)
    | point i op r =>
      cases op with
      | get k => exact hn.frame (by simp)
      | put k value clock =>
        obtain ⟨-, -, hr⟩ := hallowed
        subst hr
        simp only [History.Object.next, kvObject_put]
        by_cases hk : k = key
        · subst hk
          rcases KVStore.put_cases (kvObject.after h) k value clock with ⟨hp, hsome, hle⟩ | ⟨hp, hlt⟩
          · rw [hp]
            obtain ⟨en, hen⟩ := Option.isSome_iff_exists.mp hsome
            rw [KVStore.clockOf_of_some hen] at hle
            rw [hen] at hn ⊢
            exact hn.refused hle
          · rw [hp, KVStore.find_set_self]
            refine hn.installed fun en hen => ?_
            rcases hlt with hnone | hlt
            · exact absurd (hnone.symm.trans hen) (by simp)
            · exact KVStore.clockOf_of_some hen ▸ hlt
        · have hfind : ((kvObject.after h).put k value clock).1.find key =
              (kvObject.after h).find key := by
            rcases KVStore.put_cases (kvObject.after h) k value clock with ⟨hp, -⟩ | ⟨hp, -⟩
            · rw [hp]
            · rw [hp, KVStore.find_set_of_ne (Ne.symm hk)]
          rw [hfind]
          refine hn.frame ?_
          intro j v c r heq
          cases heq
          exact hk rfl

/-! ## 3. The store -/

/-- **A linearizable map in which the highest clock wins.** -/
structure HighestClockWins (s : State S) : Prop where
  /-- The calls are linearizable. -/
  linear : kvObject.Linear s.hist
  /-- The memory is the map that the sequential operations lead to. -/
  kv : s.mem.kv = kvObject.after s.hist
  /-- A put returns true exactly when it inserted the key or replaced its entry. -/
  put_true : ∀ i key value clock b, .ret i (.put key value clock) (.put b) ∈ s.hist →
    (b = true ↔ i ∈ s.installed)
  /-- When all puts on a key have returned, its entry is that of a put with the greatest clock,
  and of the only one with this clock that was installed. -/
  newest : ∀ key, (∃ i value clock, .call i (.put key value clock) ∈ s.hist) →
    (∀ i value clock, .call i (.put key value clock) ∈ s.hist →
      ∃ b, .ret i (.put key value clock) (.put b) ∈ s.hist) →
    ∃ i en, s.mem.kv.find key = some en ∧
      .ret i (.put key en.data en.clock) (.put true) ∈ s.hist ∧
      (∀ j value clock, .call j (.put key value clock) ∈ s.hist → clock ≤ en.clock) ∧
      ∀ j value, .call j (.put key value en.clock) ∈ s.hist → j ∈ s.installed → j = i
  /-- A get returns clock and value of the entry that a put had installed at a moment during the
  get; or not-found, when no put on the key had taken effect. -/
  get_ret : ∀ i key r, .ret i (.get key) r ∈ s.hist →
    ∃ h₁ h₂, s.hist = h₁ ++ h₂ ∧ .call i (.get key) ∈ h₁ ∧ .ret i (.get key) r ∈ h₂ ∧
      match (kvObject.after h₁).find key with
      | some en => r = .get ⟨en.clock, en.data.length, some en.data⟩ ∧
          ∃ j, .point j (.put key en.data en.clock) (.put true) ∈ h₁
      | none => r = .get .absent ∧ ∀ j value clock r, .point j (.put key value clock) r ∉ h₁

namespace Inv

/-- A call that returned is done, with the result that was recorded. -/
theorem done_of_ret (h : Inv cipher s) {i : Nat} {op : Op} {r : Res} (hr : .ret i op r ∈ s.hist) :
    ∃ c, s.calls[i]? = some c ∧ c.op = op ∧ c.pc = .done r := by
  have hlt : i < s.calls.length := h.fresh _ hr
  have hc : s.calls[i]? = some s.calls[i] := List.getElem?_eq_getElem hlt
  have hst := h.status hc
  refine ⟨_, hc, ?_⟩
  by_cases hd : ∃ r', s.calls[i].pc = .done r'
  · obtain ⟨r', hd⟩ := hd
    obtain ⟨hop, hres⟩ := h.linear.ret_unique hr (hst.ret r' hd)
    exact ⟨hop, hres ▸ hd⟩
  · exact absurd hr (hst.not_ret (fun r' hr' => hd ⟨r', hr'⟩) op r)

theorem put_true (h : Inv cipher s) {i : Nat} {op : Op} {b : Bool}
    (hr : .ret i op (.put b) ∈ s.hist) : b = true ↔ i ∈ s.installed := by
  obtain ⟨c, hc, -, hpc⟩ := h.done_of_ret hr
  rw [(h.status hc).installed, hpc]
  simp [Mem.took]

theorem newest (h : Inv cipher s) {key : List UInt8}
    (hput : ∃ i value clock, .call i (.put key value clock) ∈ s.hist)
    (hdone : ∀ i value clock, .call i (.put key value clock) ∈ s.hist →
      ∃ b, .ret i (.put key value clock) (.put b) ∈ s.hist) :
    ∃ i en, s.mem.kv.find key = some en ∧
      .ret i (.put key en.data en.clock) (.put true) ∈ s.hist ∧
      (∀ j value clock, .call j (.put key value clock) ∈ s.hist → clock ≤ en.clock) ∧
      ∀ j value, .call j (.put key value en.clock) ∈ s.hist → j ∈ s.installed → j = i := by
  have hnew := newest_of_linear h.linear key
  rw [← h.kv] at hnew
  cases hf : s.mem.kv.find key with
  | none =>
    rw [hf] at hnew
    obtain ⟨j, value, clock, hcall⟩ := hput
    obtain ⟨b, hb⟩ := hdone j value clock hcall
    exact absurd (h.linear.point_of_ret hb) (hnew j value clock _)
  | some en =>
    rw [hf] at hnew
    obtain ⟨i, hi, hmax, huniq⟩ := hnew
    obtain ⟨h₁, h₂, heq, hcall, -⟩ := h.linear.split hi
    obtain ⟨b, hb⟩ := hdone i en.data en.clock (heq ▸ List.mem_append_left _ hcall)
    refine ⟨i, en, rfl, ?_, ?_, ?_⟩
    · -- the point and the return of `i` have one result
      obtain ⟨-, hres⟩ := h.linear.point_unique hi (h.linear.point_of_ret hb)
      exact hres ▸ hb
    · intro j value clock hcall'
      obtain ⟨b', hb'⟩ := hdone j value clock hcall'
      exact hmax j value clock _ (h.linear.point_of_ret hb')
    · intro j value hcall' hj
      obtain ⟨b', hb'⟩ := hdone j value en.clock hcall'
      rw [(h.put_true hb').mpr hj] at hb'
      exact huniq j value (h.linear.point_of_ret hb')

theorem get_ret (h : Inv cipher s) {i : Nat} {r : Res} (hr : .ret i (.get key) r ∈ s.hist) :
    ∃ h₁ h₂, s.hist = h₁ ++ h₂ ∧ .call i (.get key) ∈ h₁ ∧ .ret i (.get key) r ∈ h₂ ∧
      match (kvObject.after h₁).find key with
      | some en => r = .get ⟨en.clock, en.data.length, some en.data⟩ ∧
          ∃ j, .point j (.put key en.data en.clock) (.put true) ∈ h₁
      | none => r = .get .absent ∧ ∀ j value clock r, .point j (.put key value clock) r ∉ h₁ := by
  obtain ⟨h₁, h₂, heq, hcall, hret, hres⟩ := h.linear.between hr
  have hl : kvObject.Linear (h₁ ++ .point i (.get key) r :: h₂) := heq ▸ h.linear
  have hnew := newest_of_linear hl.left key
  refine ⟨h₁, .point i (.get key) r :: h₂, heq, hcall, List.mem_cons_of_mem _ hret, ?_⟩
  simp only [kvObject_get] at hres
  cases hf : (kvObject.after h₁).find key with
  | none =>
    rw [hf] at hnew
    rw [KVStore.get_of_none hf] at hres
    exact ⟨hres.symm, hnew⟩
  | some en =>
    rw [hf] at hnew
    rw [KVStore.get_of_some hf] at hres
    obtain ⟨j, hj, -⟩ := hnew
    exact ⟨hres.symm, j, hj⟩

theorem highestClockWins (h : Inv cipher s) : HighestClockWins s where
  linear := h.linear
  kv := h.kv
  put_true := fun _ _ _ _ _ hr => h.put_true hr
  newest := fun _ hput hdone => h.newest hput hdone
  get_ret := fun _ _ _ hr => h.get_ret hr

end Inv

/-- **The memtable is a linearizable highest-clock-wins map.**  If the skip list is an atomic set
for every strict weak order and decryption undoes encryption, then after any interleaving of any
calls the store is `HighestClockWins`, and from then on the clock of a stored key never
decreases.  The order of the keys is total. -/
theorem linearizable_of_run
    (hS : IsStrictWeakOrder VarKeySizeNode VarKeySizeNode.lt → S.Lawful VarKeySizeNode.lt)
    (hc : cipher.Lawful) (h : AuthenticRun cipher (State.init S) s) :
    IsStrictTotalOrder (List UInt8) (keyLt · ·) ∧ HighestClockWins s ∧
      ∀ s', AuthenticRun cipher s s' → ∀ key en, s.mem.kv.find key = some en →
        ∃ en', s'.mem.kv.find key = some en' ∧ en.clock ≤ en'.clock := by
  have hS' : S.Lawful VarKeySizeNode.lt := hS inferInstance
  have hinv : Inv cipher s := inv_of_run hS' hc (inv_init hS') h
  refine ⟨keyLt_isStrictTotalOrder, hinv.highestClockWins, ?_⟩
  intro s' h' key en hen
  have hinv' : Inv cipher s' := inv_of_run hS' hc hinv h'
  exact (le_of_run hS' hc hinv h').kv_find hinv.mem hinv'.mem hS' hen

/-! ## 4. A run -/

/-- A cipher whose tag is the text. -/
def maskCipher : CipherSsl where
  encrypt p := (p.map (· ^^^ 90), p)
  decrypt x mac := if x = mac.map (· ^^^ 90) then some mac else none

theorem maskCipher_lawful : maskCipher.Lawful where
  length_encrypt := by
    intro p
    simp [maskCipher]
  decrypt_encrypt := by
    intro p
    simp [maskCipher]

theorem maskCipher_authenticates : maskCipher.Authenticates := by
  intro p x hx
  exact if_neg hx

/-- Two puts on one key overtake each other, the second with a compare-exchange that fails once;
then a get. -/
def overtaking : List Action :=
  [.put [1] [7] ⟨1, 1⟩, .put [1] [8, 9] ⟨2, 1⟩, .advance 0 false, .advance 1 false,
    .advance 1 false, .advance 1 true, .advance 1 false, .advance 1 false, .advance 0 false,
    .get [1], .advance 2 false, .advance 2 false, .advance 2 false]

/-- The host overwrites the chunk of the entry that was replaced. -/
def overtakingTampered : List Action := overtaking.insertIdx 8 (.overwrite 0 [0])

theorem linearizable_of_run_overtaking :
    ∃ s, AuthenticRun maskCipher (State.init (AtomicSet.sorted VarKeySizeNode.lt)) s ∧
      .ret 2 (.get [1]) (.get ⟨⟨2, 1⟩, 2, some [8, 9]⟩) ∈ s.hist ∧ s.installed = [0, 1] ∧
      s.mem.intact maskCipher 0 = false ∧ HighestClockWins s := by
  let run := Run.exec (Run.guard (authentic maskCipher) (step maskCipher))
    (State.init (AtomicSet.sorted VarKeySizeNode.lt)) overtakingTampered
  have hget : (run.map fun s => decide (.ret 2 (.get [1]) (.get ⟨⟨2, 1⟩, 2, some [8, 9]⟩) ∈ s.hist ∧
      s.installed = [0, 1] ∧ s.mem.intact maskCipher 0 = false)) = some true := by decide +kernel
  obtain ⟨s, hs, hres⟩ := Option.map_eq_some_iff.mp hget
  have hrun := Run.of_exec hs
  obtain ⟨hret, hinst, hchunk⟩ := of_decide_eq_true hres
  exact ⟨s, hrun, hret, hinst, hchunk,
    (linearizable_of_run (fun _ => AtomicSet.sorted_lawful _) maskCipher_lawful hrun).2.1⟩

end Avocado.Memtable
