/-
# The reported clocks when the host tampers with the slab

A key's clock is in trusted memory, and `KV_store::put` compares it there.  `get` reports it
through `decrypt_node`, which authenticates the value first, and when that fails returns what it
returns for a key that was never stored: the clock 0 and no value.  So a host that changes one
byte of a chunk takes the reported clock back to 0.

`ClocksAdvance` is what the protocol needs of a replica.  A run has it if and only if no `get`
decrypts a chunk that was changed (`clocksAdvance_iff`).
-/
import Avocado.Memtable.Linearizable

namespace Avocado.Memtable

variable {S : AtomicSet VarKeySizeNode} {cipher : CipherSsl} {s s' : State S}
  {h h₁ h₂ : List (History.Event Op Res)}

/-! ## 1. The property -/

/-- **Reported clocks do not go back.**  Gets are ordered by when they read `node.meta`. -/
structure ClocksAdvance (h : List (History.Event Op Res)) : Prop where
  /-- The clocks that the gets of a key return form a non-decreasing sequence. -/
  le : ∀ h₁ h₂ i j key x y r r', h = h₁ ++ h₂ → .point i (.get key) x ∈ h₁ →
    .point j (.get key) y ∈ h₂ → .ret i (.get key) (.get r) ∈ h → .ret j (.get key) (.get r') ∈ h →
    r.lamport ≤ r'.lamport
  /-- A key that was stored is not reported as absent. -/
  ne_absent : ∀ h₁ h₂ i j key value clock x r, h = h₁ ++ h₂ →
    .point i (.put key value clock) (.put true) ∈ h₁ → .point j (.get key) x ∈ h₂ →
    .ret j (.get key) (.get r) ∈ h → r ≠ .absent

theorem ClocksAdvance.left (hc : ClocksAdvance (h₁ ++ h₂)) : ClocksAdvance h₁ where
  le := by
    rintro a b i j key x y r r' rfl hi hj hr hr'
    exact hc.le a (b ++ h₂) i j key x y r r' (by simp) hi (List.mem_append_left _ hj)
      (List.mem_append_left _ hr) (List.mem_append_left _ hr')
  ne_absent := by
    rintro a b i j key value clock x r rfl hi hj hr
    exact hc.ne_absent a (b ++ h₂) i j key value clock x r (by simp) hi
      (List.mem_append_left _ hj) (List.mem_append_left _ hr)

/-! ## 2. Authentic runs have it -/

theorem clockOf_mono (key : List UInt8) (kv : KVStore) (op : Op) :
    kv.clockOf key ≤ (kvObject.apply kv op).1.clockOf key := by
  cases op with
  | put k value clock => exact KVStore.clockOf_le_put kv k value clock key
  | get k => exact le_refl _

/-- A get's point reports the map at that moment. -/
theorem get_eq_of_point {i : Nat} {key : List UInt8} {r : RetValue}
    (hl : kvObject.Linear (h₁ ++ .point i (.get key) (.get r) :: h₂)) :
    (kvObject.after h₁).get key = r := by
  obtain ⟨-, -, hres⟩ := hl h₁ _ h₂ rfl
  rw [kvObject_get, Res.get.injEq] at hres
  exact hres

/-- A return reports the result of the point. -/
theorem point_eq_of_ret {i : Nat} {op : Op} {x r : Res} (hl : kvObject.Linear h)
    (hx : .point i op x ∈ h) (hr : .ret i op r ∈ h) : x = r :=
  (hl.point_unique (hl.point_of_ret hr) hx).2

/-- **A linearizable history reports clocks that do not go back.** -/
theorem clocksAdvance_of_linear (hl : kvObject.Linear h) : ClocksAdvance h where
  le := by
    rintro a b i j key x y r r' rfl hi hj hr hr'
    have hx := point_eq_of_ret hl (List.mem_append_left _ hi) hr
    have hy := point_eq_of_ret hl (List.mem_append_right _ hj) hr'
    subst hx hy
    obtain ⟨a₁, a₂, rfl⟩ := List.append_of_mem hi
    obtain ⟨b₁, b₂, rfl⟩ := List.append_of_mem hj
    have hri := get_eq_of_point hl.left
    have hrj : (kvObject.after (a₁ ++ (.point i (.get key) (.get r) :: a₂ ++ b₁))).get key = r' := by
      refine get_eq_of_point (?_ : kvObject.Linear (_ ++ .point j (.get key) (.get r') :: b₂))
      simpa using hl
    rw [← hri, ← hrj]
    exact History.Object.after_mono (f := fun kv : KVStore => kv.clockOf key) (clockOf_mono key)
  ne_absent := by
    rintro a b i j key value clock x r rfl hi hj hr
    have hx := point_eq_of_ret hl (List.mem_append_right _ hj) hr
    subst hx
    obtain ⟨b₁, b₂, rfl⟩ := List.append_of_mem hj
    have hl' : kvObject.Linear ((a ++ b₁) ++ .point j (.get key) (.get r) :: b₂) := by
      simpa using hl
    have hrj : (kvObject.after (a ++ b₁)).get key = r := get_eq_of_point hl'
    have hnew := newest_of_linear hl'.left key
    cases hf : (kvObject.after (a ++ b₁)).find key with
    | none =>
      rw [hf] at hnew
      exact absurd (List.mem_append_left _ hi) (hnew i value clock _)
    | some en =>
      rw [KVStore.get_of_some hf] at hrj
      subst hrj
      simp [RetValue.absent]

/-! ## 3. Only authentic runs have it -/

/-- A get that is about to decrypt has read an entry that a put had installed before. -/
theorem Inv.installed_of_decrypt (h : Inv cipher s) {i : Nat} {key : List UInt8} {p : Nat}
    (hc : s.calls[i]? = some ⟨.get key, .decrypt p⟩) :
    ∃ h₁ h₂ j value clock x, s.hist = h₁ ++ .point i (.get key) x :: h₂ ∧
      .point j (.put key value clock) (.put true) ∈ h₁ := by
  obtain ⟨md, hmd⟩ := h.call hc
  have hpoint := (h.status hc).point (.get md.ret) (by simp [Mem.took, hmd])
  obtain ⟨h₁, h₂, heq⟩ := List.append_of_mem hpoint
  have hl : kvObject.Linear (h₁ ++ .point i (.get key) (.get md.ret) :: h₂) := heq ▸ h.linear
  have hget := get_eq_of_point hl
  have hnew := newest_of_linear hl.left key
  cases hf : (kvObject.after h₁).find key with
  | none =>
    rw [KVStore.get_of_none hf] at hget
    exact absurd hget (by simp [RetValue.absent, SealedMeta.ret])
  | some en =>
    rw [hf] at hnew
    obtain ⟨j, hj, -⟩ := hnew
    exact ⟨h₁, h₂, j, en.data, en.clock, _, heq, hj⟩

/-- The history after a step extends the one before. -/
theorem hist_of_step {a : Action} (hstep : step cipher s a = some s') :
    ∃ es, s'.hist = s.hist ++ es := by
  rcases step_cases hstep with ⟨key, value, clock, -, rfl⟩ | ⟨key, -, rfl⟩ |
    ⟨i, spurious, c, e, -, -, -, rfl⟩ | ⟨p, bytes, -, rfl⟩
  · exact ⟨_, rfl⟩
  · exact ⟨_, rfl⟩
  · exact ⟨_, rfl⟩
  · exact ⟨[], (List.append_nil _).symm⟩

/-- A step that decrypts a changed chunk reports a stored key as absent. -/
theorem not_clocksAdvance_of_step (hS : S.Lawful VarKeySizeNode.lt) (hc : cipher.Authenticates)
    (h : Inv cipher s) {a : Action} (ha : ¬ authentic cipher s a = true)
    (hstep : step cipher s a = some s') : ¬ ClocksAdvance s'.hist := by
  intro hadv
  rcases step_cases hstep with ⟨key, value, clock, rfl, -⟩ | ⟨key, rfl, -⟩ |
    ⟨i, spurious, c, e, rfl, hi, he, rfl⟩ | ⟨p, bytes, rfl, -⟩
  · exact ha rfl
  · exact ha rfl
  · obtain ⟨op, pc⟩ := c
    have hnext := next_cases hS he
    simp only [authentic, hi] at ha
    cases hnext with
    | @opened key p r hr =>
      have habs : r = .absent := h.enc.decryptNode_of_not_intact hc hr ha
      obtain ⟨h₁, h₂, j, value, clock, x, heq, hj⟩ := h.installed_of_decrypt hi
      refine hadv.ne_absent h₁ (.point i (.get key) x :: h₂ ++ [.ret i (.get key) (.get r)]) j i
        key value clock x r ?_ hj (by simp) ?_ habs
      · simp [State.apply, Note.events, heq]
      · simp [State.apply, Note.events]
    | _ => exact ha rfl
  · exact ha rfl

/-- **When a replica's reported clocks do not go back.**  A run of puts and gets with a host has
the property if and only if every step of it is authentic: no get decrypts a chunk whose bytes are
not those that were written when the entry was made. -/
theorem clocksAdvance_iff
    (hS : IsStrictWeakOrder VarKeySizeNode VarKeySizeNode.lt → S.Lawful VarKeySizeNode.lt)
    (hc : cipher.Lawful) (hauth : cipher.Authenticates) {as : List Action}
    (h : Run.exec (step cipher) (State.init S) as = some s) :
    ClocksAdvance s.hist ↔
      Run.exec (Run.guard (authentic cipher) (step cipher)) (State.init S) as = some s := by
  have hS' : S.Lawful VarKeySizeNode.lt := hS inferInstance
  constructor
  · intro hadv
    induction as using List.reverseRecOn generalizing s with
    | nil => exact h
    | append_singleton as a ih =>
      obtain ⟨s₁, hs₁, hstep⟩ := Run.exec_concat.mp h
      obtain ⟨es, hes⟩ := hist_of_step hstep
      have hrun := ih hs₁ (ClocksAdvance.left (hes ▸ hadv))
      have hinv : Inv cipher s₁ := inv_of_run hS' hc (inv_init hS') (Run.of_exec hrun)
      refine Run.exec_concat.mpr ⟨s₁, hrun, Run.guard_eq_some.mpr ⟨?_, hstep⟩⟩
      by_contra ha
      exact not_clocksAdvance_of_step hS' hauth hinv ha hstep hadv
  · intro hrun
    exact clocksAdvance_of_linear (inv_of_run hS' hc (inv_init hS') (Run.of_exec hrun)).linear

/-! ## 4. Two runs -/

/-- Call `i` is a get, from its call to its return. -/
def getNow (key : List UInt8) (i : Nat) : List Action :=
  [.get key, .advance i false, .advance i false, .advance i false]

/-- A key is replaced; the host overwrites the chunk of the entry that is gone, then a get. -/
def overwriteOld : List Action :=
  [.put [1] [7] ⟨1, 1⟩, .advance 0 false, .advance 0 false, .put [1] [8] ⟨2, 1⟩, .advance 1 false,
    .advance 1 false, .advance 1 false, .advance 1 false, .overwrite 0 [0]] ++ getNow [1] 2

theorem clocksAdvance_iff_overwriteOld :
    ∃ s, Run.exec (step maskCipher) (State.init (AtomicSet.sorted VarKeySizeNode.lt)) overwriteOld =
        some s ∧ ClocksAdvance s.hist := by
  let run := Run.exec (Run.guard (authentic maskCipher) (step maskCipher))
    (State.init (AtomicSet.sorted VarKeySizeNode.lt)) overwriteOld
  have hsome : run.isSome := by decide +kernel
  obtain ⟨s, hs⟩ := Option.isSome_iff_exists.mp hsome
  have hs' := Run.exec_of_guard hs
  exact ⟨s, hs', (clocksAdvance_iff (fun _ => AtomicSet.sorted_lawful _) maskCipher_lawful
    maskCipher_authenticates hs').mpr hs⟩

/-- A put and a get; the host overwrites the value's chunk, then a second get. -/
def overwriteBetween : List Action :=
  [.put [1] [7] ⟨5, 1⟩, .advance 0 false, .advance 0 false] ++ getNow [1] 1 ++ [.overwrite 0 [0]] ++
    getNow [1] 2

/-- **The clock goes back.**  The first get reports clock 5, the second one reports the stored key
as absent, with clock 0. -/
theorem not_clocksAdvance_overwriteBetween :
    ∃ s, Run.exec (step maskCipher) (State.init (AtomicSet.sorted VarKeySizeNode.lt))
        overwriteBetween = some s ∧
      .ret 1 (.get [1]) (.get ⟨⟨5, 1⟩, 1, some [7]⟩) ∈ s.hist ∧
      .ret 2 (.get [1]) (.get .absent) ∈ s.hist ∧ ¬ ClocksAdvance s.hist := by
  let first : RetValue := ⟨⟨5, 1⟩, 1, some [7]⟩
  let h₁ : List (History.Event Op Res) :=
    [.call 0 (.put [1] [7] ⟨5, 1⟩), .point 0 (.put [1] [7] ⟨5, 1⟩) (.put true),
      .ret 0 (.put [1] [7] ⟨5, 1⟩) (.put true), .call 1 (.get [1]),
      .point 1 (.get [1]) (.get first), .ret 1 (.get [1]) (.get first)]
  let h₂ : List (History.Event Op Res) :=
    [.call 2 (.get [1]), .point 2 (.get [1]) (.get first), .ret 2 (.get [1]) (.get .absent)]
  let run := Run.exec (step maskCipher) (State.init (AtomicSet.sorted VarKeySizeNode.lt))
    overwriteBetween
  have hhist : (run.map fun s => s.hist) = some (h₁ ++ h₂) := by decide +kernel
  obtain ⟨s, hs, hist⟩ := Option.map_eq_some_iff.mp hhist
  refine ⟨s, hs, by rw [hist]; decide, by rw [hist]; decide, fun hadv => ?_⟩
  rw [hist] at hadv
  have hle : first.lamport ≤ RetValue.absent.lamport :=
    hadv.le h₁ h₂ 1 2 [1] (.get first) (.get first) first .absent rfl (by decide) (by decide)
      (by decide) (by decide)
  exact absurd hle (by decide)

end Avocado.Memtable
